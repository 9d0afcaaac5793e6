import Peg.Outline
import Peg.Parsing

/-! Nodes and their loops as programs over any kind of computation.
A relation between two kinds of computations that composing keeps is kept by every loop, and so is a
property of one kind.  Main statement: it is kept by running a node when it is kept by running what
lies below. -/
namespace Peg

namespace Parsing

variable {m m' : Type → Type} [Monad m] [Abrupt m] [Monad m'] [Abrupt m']

/-- A relation between computations of two kinds that composing keeps. -/
structure Congruence (R : (α : Type) → m α → m' α → Prop) : Prop where
  done {α : Type} (a : α) : R α (pure a) (pure a)
  bind {α β : Type} {x : m α} {y : m' α} {f : α → m β} {g : α → m' β} :
    R α x y → (∀ a, R β (f a) (g a)) → R β (x >>= f) (y >>= g)
  raise {α : Type} (fault : Fault) : R α (Abrupt.raise fault) (Abrupt.raise fault)
  exhaust {α : Type} : R α Abrupt.exhaust Abrupt.exhaust

namespace Congruence

variable {R : (α : Type) → m α → m' α → Prop}

theorem sequence (hR : Congruence R) {step : Parser → Int → m Outcome}
    {step' : Parser → Int → m' Outcome} (parts : List (Parser × Bool))
    (h : ∀ x ∈ parts, ∀ i, R _ (step x.1 i) (step' x.1 i)) (values : List Value) (cut : Bool)
    (i : Int) :
    R _ (Parsing.sequence step parts values cut i) (Parsing.sequence step' parts values cut i) := by
  induction parts generalizing values cut i with
  | nil => exact hR.done _
  | cons x rest ih =>
    obtain ⟨p,unit⟩ := x
    refine hR.bind (h (p,unit) (by simp) i) fun o => ?_
    cases o with
    | success v j c => exact ih (fun y hy => h y (by simp [hy])) _ _ _
    | failure j cause c => exact hR.done _

theorem choice (hR : Congruence R) {step : Parser → Int → m Outcome}
    {step' : Parser → Int → m' Outcome} (whole : Parser) (i : Int) (branches : List Parser)
    (h : ∀ p ∈ branches, R _ (step p i) (step' p i)) :
    R _ (Parsing.choice step whole i branches) (Parsing.choice step' whole i branches) := by
  induction branches with
  | nil => exact hR.done _
  | cons p ps ih =>
    refine hR.bind (h p (by simp)) fun o => ?_
    cases o with
    | success v j c => exact hR.done _
    | failure j cause c =>
      cases c with
      | true => exact hR.done _
      | false => exact ih fun q hq => h q (by simp [hq])

theorem gap (hR : Congruence R) {separator : Int → m Outcome} {separator' : Int → m' Outcome}
    (h : ∀ i, R _ (separator i) (separator' i)) (t : Tally) :
    R _ (Parsing.gap separator t) (Parsing.gap separator' t) := by
  unfold Parsing.gap
  split
  · exact hR.done _
  · exact h _

theorem rounds (hR : Congruence R) {element separator : Int → m Outcome}
    {element' separator' : Int → m' Outcome} (he : ∀ i, R _ (element i) (element' i))
    (hs : ∀ i, R _ (separator i) (separator' i)) (least : Nat) (most : Option Nat) (fuel : Nat)
    (t : Tally) :
    R _ (Parsing.rounds element separator least most fuel t)
      (Parsing.rounds element' separator' least most fuel t) := by
  induction fuel generalizing t with
  | zero =>
    unfold Parsing.rounds
    split
    · exact hR.done _
    · exact hR.exhaust
  | succ fuel ih =>
    unfold Parsing.rounds
    split
    · exact hR.done _
    · refine hR.bind (hR.gap hs t) fun o => ?_
      cases o with
      | failure j cause c => exact hR.done _
      | success v start c =>
        refine hR.bind (he start) fun o => ?_
        cases o with
        | failure j cause d => exact hR.done _
        | success v j d =>
          dsimp only
          split
          · exact hR.done _
          · exact ih _

theorem repetition (hR : Congruence R) {element separator : Int → m Outcome}
    {element' separator' : Int → m' Outcome} (he : ∀ i, R _ (element i) (element' i))
    (hs : ∀ i, R _ (separator i) (separator' i)) (least : Nat) (most : Option Nat) (whole : Parser)
    (t : Text) (i : Int) :
    R _ (Parsing.repetition element separator least most whole t i)
      (Parsing.repetition element' separator' least most whole t i) := by
  refine hR.bind (hR.rounds he hs least most _ _) fun tally => ?_
  split
  · exact hR.done _
  · exact hR.done _

/-- Running a node is kept when running the nodes below it is; a flat map also goes on with parsers
that its function gives. -/
theorem node (hR : Congruence R) {e : Surroundings m} {e' : Surroundings m'} (t : Text)
    {step : Parser → Int → m Outcome} {step' : Parser → Int → m' Outcome} (p : Parser) (i : Int)
    (hc : ∀ q ∈ p.children, ∀ j, R _ (step q j) (step' q j))
    (hn : ∀ id body next name v q, p = .flatMap id body next name → next v = .ok q →
      ∀ j, R _ (step q j) (step' q j))
    (hs : ∀ id parts, p = .seq id parts → R _ (e.shape id parts) (e'.shape id parts))
    (hr : ∀ r name, p = .rule r name →
      R _ (e.rule r name i fun q => step q i) (e'.rule r name i fun q => step' q i))
    (hl : ∀ id body name hook, p = .log id body name hook →
      R _ (e.log hook name i (step body i)) (e'.log hook name i (step' body i))) :
    R _ (Parsing.node e t step p i) (Parsing.node e' t step' p i) := by
  cases p with
  | terminal id s =>
    simp only [Parsing.node]
    rcases s.scan t i with fault | _ | j
    · exact hR.raise fault
    · exact hR.done _
    · exact hR.done _
  | seq id parts =>
    refine hR.bind (hs id parts rfl) fun units => hR.sequence _ (fun x hx => ?_) _ _ _
    exact hc x.1 (List.of_mem_zip hx).1
  | choice branches => exact hR.choice _ _ _ fun q hq => hc q hq i
  | rep id element least most separator =>
    exact hR.repetition (hc element (by simp [Parser.children]))
      (hc separator (by simp [Parser.children])) _ _ _ _ _
  | opt body =>
    exact hR.bind (hc body (by simp [Parser.children]) i) fun o => by cases o <;> exact hR.done _
  | not body =>
    exact hR.bind (hc body (by simp [Parser.children]) i) fun o => by cases o <;> exact hR.done _
  | cut body =>
    exact hR.bind (hc body (by simp [Parser.children]) i) fun o => by cases o <;> exact hR.done _
  | capture body =>
    exact hR.bind (hc body (by simp [Parser.children]) i) fun o => by cases o <;> exact hR.done _
  | map id body f name =>
    refine hR.bind (hc body (by simp [Parser.children]) i) fun o => ?_
    cases o with
    | success v j cut =>
      dsimp only
      cases f v with
      | ok u => exact hR.done _
      | error fault => exact hR.raise fault
    | failure j cause cut => exact hR.done _
  | flatMap id body next name =>
    refine hR.bind (hc body (by simp [Parser.children]) i) fun o => ?_
    cases o with
    | success v j cut =>
      dsimp only
      cases hq : next v with
      | ok q => exact hR.bind (hn id body next name v q rfl hq j) fun o => hR.done _
      | error fault => exact hR.raise fault
    | failure j cause cut => exact hR.done _
  | filter id body test name =>
    refine hR.bind (hc body (by simp [Parser.children]) i) fun o => ?_
    cases o with
    | success v j cut =>
      dsimp only
      rcases test v with fault | _ | _
      · exact hR.raise fault
      · exact hR.done _
      · exact hR.done _
    | failure j cause cut => exact hR.done _
  | rule r name => exact hr r name rfl
  | log id body name hook => exact hl id body name hook rfl

end Congruence

/-- A property of computations that composing keeps. -/
structure Closed (P : (α : Type) → m α → Prop) : Prop where
  done {α : Type} (a : α) : P α (pure a)
  bind {α β : Type} {x : m α} {f : α → m β} : P α x → (∀ a, P β (f a)) → P β (x >>= f)
  raise {α : Type} (fault : Fault) : P α (Abrupt.raise fault)
  exhaust {α : Type} : P α Abrupt.exhaust

namespace Closed

variable {P : (α : Type) → m α → Prop}

/-- Being the same computation with such a property is a relation that composing keeps. -/
theorem congruence (hP : Closed P) : Congruence fun (α : Type) (x y : m α) => x = y ∧ P α x where
  done a := ⟨rfl,hP.done a⟩
  bind := by
    rintro α β x _ f g ⟨rfl,hx⟩ hf
    obtain rfl : f = g := funext fun a => (hf a).1
    exact ⟨rfl,hP.bind hx fun a => (hf a).2⟩
  raise fault := ⟨rfl,hP.raise fault⟩
  exhaust := ⟨rfl,hP.exhaust⟩

theorem node (hP : Closed P) {e : Surroundings m} (t : Text) {step : Parser → Int → m Outcome}
    (p : Parser) (i : Int) (hc : ∀ q ∈ p.children, ∀ j, P _ (step q j))
    (hn : ∀ id body next name v q, p = .flatMap id body next name → next v = .ok q →
      ∀ j, P _ (step q j))
    (hs : ∀ id parts, p = .seq id parts → P _ (e.shape id parts))
    (hr : ∀ r name, p = .rule r name → P _ (e.rule r name i fun q => step q i))
    (hl : ∀ id body name hook, p = .log id body name hook → P _ (e.log hook name i (step body i))) :
    P _ (Parsing.node e t step p i) := by
  let whole := Parsing.node e t step p i
  have hwhole : whole = whole ∧ P _ whole := hP.congruence.node t p i
    (fun q hq j => ⟨rfl,hc q hq j⟩)
    (fun id body next name v q hp hq j => ⟨rfl,hn id body next name v q hp hq j⟩)
    (fun id parts hp => ⟨rfl,hs id parts hp⟩) (fun r name hp => ⟨rfl,hr r name hp⟩)
    fun id body name hook hp => ⟨rfl,hl id body name hook hp⟩
  exact hwhole.2

/-- What composing and tracing keep holds of every run, if it holds of building bodies and of asking
for the unit parsers among parts. -/
theorem run {P : (α : Type) → Run α → Prop} (hP : Closed P) {w : World} {c : Context}
    (hbody : ∀ r, P _ (Rules.body w r))
    (hshape : ∀ n id parts, P _ (Rules.shape (Rules.isUnit w n) id parts))
    (htraced : ∀ hook name i x, P _ x → P _ (Hooks.traced id w c hook name i x))
    (hlogged : ∀ own name i x, P _ x → P _ (Hooks.logged id w c own name i x)) (n : Nat)
    (p : Parser) (i : Int) : P _ (Parsing.run w c n p i) := by
  induction n generalizing p i with
  | zero => exact hP.exhaust
  | succ n ih =>
    apply hP.node c.text p i (fun q _ j => ih q j) (fun _ _ _ _ _ q _ _ j => ih q j)
    · exact fun id parts _ => hshape n id parts
    · intro r name _
      refine hP.bind (hbody r) fun q => ?_
      cases c.tracesRules with
      | some hook => exact htraced hook name i _ (ih q i)
      | none => exact ih q i
    · exact fun id body name own _ => hlogged own name i _ (ih body i)

end Closed
end Parsing
end Peg
