import Peg.Outline
import Peg.Parsing

/-! Parsers without their cuts, and how a parser and the same without its cuts run side by side.
A relation between computations of two kinds that may lose some results of the first is kept by
every loop.  Main statement: it is kept by running a node other than a cut or a choice. -/
namespace Peg

namespace Parser

mutual
/-- The parser without its cuts: the body of a cut stands where the cut stood, also in what a flat
map goes on with. -/
def uncut : Parser → Parser
  | terminal id t => terminal id t
  | seq id parts => seq id (uncutAll parts)
  | choice branches => choice (uncutAll branches)
  | rep id element least most separator => rep id (uncut element) least most (uncut separator)
  | opt body => opt (uncut body)
  | not body => not (uncut body)
  | cut body => uncut body
  | map id body f name => map id (uncut body) f name
  | flatMap id body next name => flatMap id (uncut body) (fun v => uncutNext (next v)) name
  | filter id body test name => filter id (uncut body) test name
  | capture body => capture (uncut body)
  | rule r name => rule r name
  | log id body name hook => log id (uncut body) name hook

def uncutAll : List Parser → List Parser
  | [] => []
  | p :: ps => uncut p :: uncutAll ps

def uncutNext : Except Fault Parser → Except Fault Parser
  | .ok p => .ok (uncut p)
  | .error fault => .error fault
end

@[simp] theorem uncutAll_eq_map (ps : List Parser) : uncutAll ps = ps.map uncut := by
  induction ps with
  | nil => rfl
  | cons p ps ih => rw [uncutAll,ih,List.map_cons]

mutual
/-- Whether a parser is without cuts, also in what is not told by its tree. -/
def cutless : Parser → Bool
  | terminal .. => true
  | seq _ ps | choice ps => allCutless ps
  | rep _ element _ _ separator => cutless element && cutless separator
  | opt body | not body | map _ body .. | filter _ body .. | capture body | log _ body .. =>
    cutless body
  | cut _ | flatMap .. | rule .. => false

def allCutless : List Parser → Bool
  | [] => true
  | p :: ps => cutless p && allCutless ps
end

theorem cutless_of_mem {ps : List Parser} (h : allCutless ps = true) {p : Parser} (hp : p ∈ ps) :
    p.cutless = true := by
  induction ps with
  | nil => cases hp
  | cons q ps ih =>
    rw [allCutless,Bool.and_eq_true] at h
    rcases List.mem_cons.mp hp with rfl | hp
    · exact h.1
    · exact ih h.2 hp

theorem cutless_children {p q : Parser} (h : p.cutless = true) (hq : q ∈ p.children) :
    q.cutless = true := by
  cases p with
  | terminal | rule => cases hq
  | cut | flatMap => cases h
  | seq id ps => exact cutless_of_mem h hq
  | choice ps => exact cutless_of_mem h hq
  | rep id element least most separator =>
    rw [cutless,Bool.and_eq_true] at h
    rcases List.mem_cons.mp hq with rfl | hq
    · exact h.1
    · exact List.mem_singleton.mp hq ▸ h.2
  | opt | not | map | filter | capture | log => exact List.mem_singleton.mp hq ▸ h

/-- Whether a parser may succeed although what lies below it failed. -/
def tolerates : Parser → Bool
  | rep .. | opt _ | not _ => true
  | _ => false

end Parser

/-- The same world with the cuts taken out of what suppliers give. -/
def World.uncut (w : World) : World :=
  { w with supply := fun r n => Parser.uncutNext (w.supply r n) }

namespace Outcome

/-- The same outcome without a cut, up to the parser that a failure is blamed on; there may have
been a cut only if one can be seen. -/
inductive Uncut (seen : Prop) : Outcome → Outcome → Prop
  | success {v : Value} {j : Int} {cut : Bool} :
    (cut = true → seen) → Uncut seen (.success v j cut) (.success v j false)
  | failure {j : Int} {cause cause' : Parser} {cut : Bool} :
    (cut = true → seen) → Uncut seen (.failure j cause cut) (.failure j cause' false)

/-- A failure with a cut, where such failures may be lost. -/
def Lost (lossy : Prop) (o : Outcome) : Prop := lossy ∧ ∃ j cause, o = .failure j cause true

theorem Uncut.mono {seen seen' : Prop} (h : seen → seen') {o o' : Outcome} (ho : Uncut seen o o') :
    Uncut seen' o o' := by
  cases ho with
  | success hc => exact .success fun c => h (hc c)
  | failure hc => exact .failure fun c => h (hc c)

end Outcome

/-- The same tally without its cut. -/
def Tally.uncut (t : Tally) : Tally := { t with cut := false }

namespace Parsing

variable {m m' : Type → Type} [Monad m] [Abrupt m] [Monad m']

/-- A relation between computations of two kinds that composing keeps: what the first one gives is
lost, or the second one gives something that is related to it. -/
structure Simulation
    (R : (α β : Type) → (α → Prop) → (α → β → Prop) → m α → m' β → Prop) : Prop where
  done {α β : Type} {lost : α → Prop} {Q : α → β → Prop} {a : α} {b : β} :
    Q a b → R α β lost Q (pure a) (pure b)
  lost {α β : Type} {lost : α → Prop} {Q : α → β → Prop} {a : α} {y : m' β} :
    lost a → R α β lost Q (pure a) y
  imp {α β : Type} {lost lost' : α → Prop} {Q Q' : α → β → Prop} {x : m α} {y : m' β} :
    R α β lost Q x y → (∀ a, lost a → lost' a) → (∀ a b, Q a b → Q' a b) → R α β lost' Q' x y
  raise {α β : Type} {lost : α → Prop} {Q : α → β → Prop} {fault : Fault} {y : m' β} :
    R α β lost Q (Abrupt.raise fault) y
  exhaust {α β : Type} {lost : α → Prop} {Q : α → β → Prop} {y : m' β} :
    R α β lost Q Abrupt.exhaust y
  bind {α β γ δ : Type} {lost : α → Prop} {Q : α → β → Prop} {lost' : γ → Prop} {Q' : γ → δ → Prop}
    {x : m α} {y : m' β} {f : α → m γ} {g : β → m' δ} :
    R α β lost Q x y → (∀ a, lost a → ∃ c, f a = pure c ∧ lost' c) →
      (∀ a b, Q a b → R γ δ lost' Q' (f a) (g b)) → R γ δ lost' Q' (x >>= f) (y >>= g)

namespace Simulation

variable {R : (α β : Type) → (α → Prop) → (α → β → Prop) → m α → m' β → Prop}
  {lossy seen : Prop}

theorem seen_of_or {b c : Bool} (hb : b = true → seen) (hc : c = true → seen) :
    (b || c) = true → seen := by
  intro h
  rcases Bool.or_eq_true_iff.mp h with h | h
  · exact hb h
  · exact hc h

/-- Composing after computations that give the same and lose nothing. -/
theorem same (hR : Simulation R) {α γ δ : Type} {lost : γ → Prop} {Q : γ → δ → Prop} {x : m α}
    {y : m' α} {f : α → m γ} {g : α → m' δ} (hx : R α α (fun _ => False) (· = ·) x y)
    (hf : ∀ a, R γ δ lost Q (f a) (g a)) : R γ δ lost Q (x >>= f) (y >>= g) := by
  refine hR.bind hx (fun _ h => h.elim) ?_
  rintro a _ rfl
  exact hf a

/-- Composing where a failure is handed on as a failure with as much of a cut. -/
theorem bindOutcome (hR : Simulation R) {x : m Outcome} {y : m' Outcome} {f : Outcome → m Outcome}
    {g : Outcome → m' Outcome} (hx : R _ _ (Outcome.Lost lossy) (Outcome.Uncut seen) x y)
    (hfailure : ∀ j cause cut, ∃ k whole, f (.failure j cause cut) = pure (.failure k whole cut) ∧
      ∀ cause', ∃ whole', g (.failure j cause' false) = pure (.failure k whole' false))
    (hsuccess : ∀ v j cut, (cut = true → seen) →
      R _ _ (Outcome.Lost lossy) (Outcome.Uncut seen) (f (.success v j cut))
        (g (.success v j false))) :
    R _ _ (Outcome.Lost lossy) (Outcome.Uncut seen) (x >>= f) (y >>= g) := by
  refine hR.bind hx ?_ ?_
  · rintro _ ⟨hl,j,cause,rfl⟩
    obtain ⟨k,whole,hf,-⟩ := hfailure j cause true
    exact ⟨_,hf,hl,k,whole,rfl⟩
  · rintro _ _ (@⟨v,j,cut,hc⟩ | @⟨j,cause,cause',cut,hc⟩)
    · exact hsuccess v j cut hc
    · obtain ⟨k,whole,hf,hg⟩ := hfailure j cause cut
      obtain ⟨whole',hg⟩ := hg cause'
      rw [hf,hg]
      exact hR.done (.failure hc)

theorem sequence (hR : Simulation R) {step : Parser → Int → m Outcome}
    {step' : Parser → Int → m' Outcome} (parts : List (Parser × Bool))
    (h : ∀ x ∈ parts, ∀ i,
      R _ _ (Outcome.Lost lossy) (Outcome.Uncut seen) (step x.1 i) (step' x.1.uncut i))
    (values : List Value) (cut : Bool) (hcut : cut = true → seen) (i : Int) :
    R _ _ (Outcome.Lost lossy) (Outcome.Uncut seen) (Parsing.sequence step parts values cut i)
      (Parsing.sequence step' (parts.map (Prod.map Parser.uncut id)) values false i) := by
  induction parts generalizing values cut i with
  | nil => exact hR.done (.success hcut)
  | cons x rest ih =>
    obtain ⟨p,unit⟩ := x
    refine hR.bind (h (p,unit) (by simp) i) ?_ ?_
    · rintro _ ⟨hl,j,cause,rfl⟩
      exact ⟨_,rfl,hl,j,cause,by rw [Bool.or_true]⟩
    · rintro _ _ (@⟨v,j,c,hc⟩ | @⟨j,cause,cause',c,hc⟩)
      · exact ih (fun y hy => h y (by simp [hy])) _ _ (seen_of_or hcut hc) j
      · exact hR.done (.failure (seen_of_or hcut hc))

/-- A cut beside its body. -/
theorem cut [LawfulMonad m'] (hR : Simulation R) (hseen : seen) {x : m Outcome} {y : m' Outcome}
    (h : R _ _ (Outcome.Lost lossy) (Outcome.Uncut seen) x y) {e : Surroundings m} {t : Text}
    {step : Parser → Int → m Outcome} {body : Parser} {i : Int} (hx : step body i = x) :
    R _ _ (Outcome.Lost lossy) (Outcome.Uncut seen) (Parsing.node e t step (.cut body) i) y := by
  rw [← bind_pure y]
  subst hx
  refine hR.bindOutcome h (fun j cause cut => ⟨j,cause,rfl,fun cause' => ⟨cause',rfl⟩⟩) ?_
  exact fun v j cut _ => hR.done (.success fun _ => hseen)

/-- Trying branches, where a branch may also tell more of its outcome.  A choice that stops at a cut
has to be shown to have no branch left that would succeed without one. -/
theorem choice (hR : Simulation R) {step : Parser → Int → m Outcome}
    {step' : Parser → Int → m' Outcome} (whole whole' : Parser) (i : Int) (branches : List Parser)
    {D : Parser → Outcome → Prop}
    (h : ∀ p ∈ branches, R _ _ (Outcome.Lost lossy) (fun o o' => Outcome.Uncut seen o o' ∧ D p o)
      (step p i) (step' p.uncut i))
    (hstop : seen → ∀ p ps, p :: ps <:+ branches → ∀ j cause, D p (.failure j cause true) →
      R _ _ (Outcome.Lost lossy) (Outcome.Uncut seen) (pure (.failure i whole true))
        (Parsing.choice step' whole' i (ps.map Parser.uncut))) :
    R _ _ (Outcome.Lost lossy) (Outcome.Uncut seen) (Parsing.choice step whole i branches)
      (Parsing.choice step' whole' i (branches.map Parser.uncut)) := by
  induction branches with
  | nil => exact hR.done (.failure nofun)
  | cons p ps ih =>
    refine hR.bind (h p (by simp)) ?_ ?_
    · rintro _ ⟨hl,j,cause,rfl⟩
      exact ⟨_,rfl,hl,i,whole,rfl⟩
    · rintro _ _ ⟨@⟨v,j,cut,hc⟩ | @⟨j,cause,cause',cut,hc⟩,hD⟩
      · exact hR.done (.success nofun)
      · cases cut with
        | true => exact hstop (hc rfl) p ps List.suffix_rfl j cause hD
        | false =>
          exact ih (fun q hq => h q (by simp [hq])) fun hs q qs hq =>
            hstop hs q qs (hq.trans (List.suffix_cons p ps))

theorem gap (hR : Simulation R) {separator : Int → m Outcome} {separator' : Int → m' Outcome}
    (h : ∀ i, R _ _ (Outcome.Lost False) (Outcome.Uncut seen) (separator i) (separator' i))
    (t : Tally) :
    R _ _ (Outcome.Lost False) (Outcome.Uncut seen) (Parsing.gap separator t)
      (Parsing.gap separator' t.uncut) := by
  by_cases hcount : t.count = 0
  · have hcount' : t.uncut.count = 0 := hcount
    rw [Parsing.gap,Parsing.gap,if_pos hcount,if_pos hcount']
    exact hR.done (.success nofun)
  · have hcount' : ¬ t.uncut.count = 0 := hcount
    rw [Parsing.gap,Parsing.gap,if_neg hcount,if_neg hcount']
    exact h t.stop

variable [Abrupt m']

/-- A round that fails ends the rounds whether it had a cut or not, so that nothing is lost. -/
theorem rounds (hR : Simulation R) {element separator : Int → m Outcome}
    {element' separator' : Int → m' Outcome}
    (he : ∀ i, R _ _ (Outcome.Lost False) (Outcome.Uncut seen) (element i) (element' i))
    (hs : ∀ i, R _ _ (Outcome.Lost False) (Outcome.Uncut seen) (separator i) (separator' i))
    (least : Nat) (most : Option Nat) (fuel : Nat) (t : Tally) (ht : t.cut = true → seen) :
    R _ _ (fun _ => False) (fun t t' => t' = t.uncut ∧ (t.cut = true → seen))
      (Parsing.rounds element separator least most fuel t)
      (Parsing.rounds element' separator' least most fuel t.uncut) := by
  induction fuel generalizing t with
  | zero =>
    by_cases hm : most.any (· ≤ t.count) = true
    · have hm' : most.any (· ≤ t.uncut.count) = true := hm
      rw [Parsing.rounds,Parsing.rounds,if_pos hm,if_pos hm']
      exact hR.done ⟨rfl,ht⟩
    · rw [Parsing.rounds,if_neg hm]
      exact hR.exhaust
  | succ fuel ih =>
    by_cases hm : most.any (· ≤ t.count) = true
    · have hm' : most.any (· ≤ t.uncut.count) = true := hm
      rw [Parsing.rounds,Parsing.rounds,if_pos hm,if_pos hm']
      exact hR.done ⟨rfl,ht⟩
    · have hm' : ¬ most.any (· ≤ t.uncut.count) = true := hm
      rw [Parsing.rounds,Parsing.rounds,if_neg hm,if_neg hm']
      refine hR.bind (hR.gap hs t) (fun _ h => h.1.elim) ?_
      rintro _ _ (@⟨v,start,c,hc⟩ | @⟨j,cause,cause',c,hc⟩)
      · refine hR.bind (he start) (fun _ h => h.1.elim) ?_
        rintro _ _ (@⟨v,j,d,hd⟩ | @⟨j,cause,cause',d,hd⟩)
        · dsimp only
          by_cases hstay : j = t.stop ∧ least ≤ t.count + 1
          · have hstay' : j = t.uncut.stop ∧ least ≤ t.uncut.count + 1 := hstay
            rw [if_pos hstay,if_pos hstay']
            exact hR.done ⟨rfl,seen_of_or (seen_of_or ht hc) hd⟩
          · have hstay' : ¬ (j = t.uncut.stop ∧ least ≤ t.uncut.count + 1) := hstay
            rw [if_neg hstay,if_neg hstay']
            exact ih _ (seen_of_or (seen_of_or ht hc) hd)
        · exact hR.done ⟨rfl,seen_of_or (seen_of_or ht hc) hd⟩
      · exact hR.done ⟨rfl,seen_of_or ht hc⟩

theorem repetition (hR : Simulation R) {element separator : Int → m Outcome}
    {element' separator' : Int → m' Outcome}
    (he : ∀ i, R _ _ (Outcome.Lost False) (Outcome.Uncut seen) (element i) (element' i))
    (hs : ∀ i, R _ _ (Outcome.Lost False) (Outcome.Uncut seen) (separator i) (separator' i))
    (least : Nat) (most : Option Nat) (whole whole' : Parser) (t : Text) (i : Int) :
    R _ _ (Outcome.Lost lossy) (Outcome.Uncut seen)
      (Parsing.repetition element separator least most whole t i)
      (Parsing.repetition element' separator' least most whole' t i) := by
  refine hR.bind (hR.rounds he hs least most _ _ nofun) (fun _ h => h.elim) ?_
  rintro tally _ ⟨rfl,ht⟩
  by_cases hcount : tally.count < least
  · have hcount' : tally.uncut.count < least := hcount
    rw [if_pos hcount,if_pos hcount']
    exact hR.done (.failure ht)
  · have hcount' : ¬ tally.uncut.count < least := hcount
    rw [if_neg hcount,if_neg hcount']
    exact hR.done (.success ht)

/-- Running a node that is neither a cut nor a choice beside the same node without its cuts.  Below
a node that may succeed although what lies below it failed, nothing may be lost. -/
theorem node (hR : Simulation R) {e : Surroundings m} {e' : Surroundings m'} (t : Text)
    {step : Parser → Int → m Outcome} {step' : Parser → Int → m' Outcome} (p : Parser) (i : Int)
    (hcut : ∀ body, p ≠ .cut body) (hchoice : ∀ branches, p ≠ .choice branches)
    (hc : p.tolerates = false → ∀ q ∈ p.children, ∀ j,
      R _ _ (Outcome.Lost lossy) (Outcome.Uncut seen) (step q j) (step' q.uncut j))
    (ht : p.tolerates = true → ∀ q ∈ p.children, ∀ j,
      R _ _ (Outcome.Lost False) (Outcome.Uncut seen) (step q j) (step' q.uncut j))
    (hn : ∀ id body next name v q, p = .flatMap id body next name → next v = .ok q →
      ∀ j, R _ _ (Outcome.Lost lossy) (Outcome.Uncut seen) (step q j) (step' q.uncut j))
    (hs : ∀ id parts, p = .seq id parts →
      R _ _ (fun _ => False) (· = ·) (e.shape id parts) (e'.shape id (parts.map Parser.uncut)))
    (hr : ∀ r name, p = .rule r name → R _ _ (Outcome.Lost lossy) (Outcome.Uncut seen)
      (e.rule r name i fun q => step q i) (e'.rule r name i fun q => step' q i))
    (hl : ∀ id body name hook, p = .log id body name hook →
      R _ _ (Outcome.Lost lossy) (Outcome.Uncut seen) (e.log hook name i (step body i))
        (e'.log hook name i (step' body.uncut i))) :
    R _ _ (Outcome.Lost lossy) (Outcome.Uncut seen) (Parsing.node e t step p i)
      (Parsing.node e' t step' p.uncut i) := by
  cases p with
  | cut body => exact absurd rfl (hcut body)
  | choice branches => exact absurd rfl (hchoice branches)
  | terminal id s =>
    simp only [Parsing.node,Parser.uncut]
    rcases s.scan t i with fault | _ | j
    · exact hR.raise
    · exact hR.done (.failure nofun)
    · exact hR.done (.success nofun)
  | seq id parts =>
    rw [Parser.uncut,Parser.uncutAll_eq_map]
    refine hR.same (hs id parts rfl) fun units => ?_
    rw [List.zip_map_left]
    exact hR.sequence (parts.zip units) (fun x hx => hc rfl x.1 (List.of_mem_zip hx).1) [] false
      nofun i
  | rep id element least most separator =>
    exact hR.repetition (ht rfl element (by simp [Parser.children]))
      (ht rfl separator (by simp [Parser.children])) _ _ _ _ _ _
  | opt body =>
    refine hR.bind (ht rfl body (by simp [Parser.children]) i) (fun _ h => h.1.elim) ?_
    rintro _ _ (@⟨v,j,cut,h⟩ | h)
    · exact hR.done (.success h)
    · exact hR.done (.success nofun)
  | not body =>
    refine hR.bind (ht rfl body (by simp [Parser.children]) i) (fun _ h => h.1.elim) ?_
    rintro _ _ (h | h)
    · exact hR.done (.failure nofun)
    · exact hR.done (.success nofun)
  | capture body =>
    refine hR.bindOutcome (hc rfl body (by simp [Parser.children]) i)
      (fun j cause cut => ⟨j,cause,rfl,fun cause' => ⟨cause',rfl⟩⟩) fun v j cut h => ?_
    exact hR.done (.success h)
  | map id body f name =>
    refine hR.bindOutcome (hc rfl body (by simp [Parser.children]) i)
      (fun j cause cut => ⟨j,cause,rfl,fun cause' => ⟨cause',rfl⟩⟩) fun v j cut h => ?_
    dsimp only
    cases f v with
    | ok u => exact hR.done (.success h)
    | error fault => exact hR.raise
  | flatMap id body next name =>
    refine hR.bindOutcome (hc rfl body (by simp [Parser.children]) i)
      (fun j cause cut => ⟨j,cause,rfl,fun cause' => ⟨cause',rfl⟩⟩) fun v j cut h => ?_
    dsimp only
    cases hq : next v with
    | error fault => exact hR.raise
    | ok q =>
      refine hR.bind (hn id body next name v q rfl hq j) ?_ ?_
      · rintro _ ⟨hl,k,cause,rfl⟩
        exact ⟨_,rfl,hl,k,cause,by rw [Outcome.afterCut,Bool.or_true]⟩
      · rintro _ _ (hk | hk)
        · exact hR.done (.success (seen_of_or h hk))
        · exact hR.done (.failure (seen_of_or h hk))
  | filter id body test name =>
    refine hR.bindOutcome (hc rfl body (by simp [Parser.children]) i)
      (fun j cause cut => ⟨j,cause,rfl,fun cause' => ⟨cause',rfl⟩⟩) fun v j cut h => ?_
    dsimp only
    rcases test v with fault | _ | _
    · exact hR.raise
    · exact hR.done (.failure h)
    · exact hR.done (.success h)
  | rule r name => exact hr r name rfl
  | log id body name hook => exact hl id body name hook rfl

end Simulation
end Parsing
end Peg
