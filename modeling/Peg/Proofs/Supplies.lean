import Peg.Proofs.Refusals
import Peg.Session

/-! Bodies that are built when they are first needed, and once.
A supplier is called only where the body of a rule is gone on with, and the first body that it gives
stays.  Main statement: after any session every call of a supplier raised but the one that gave the
body, what needed a body could reach its rule, and making or describing parsers calls no supplier. -/
namespace Peg

open Relation

/-- How many of the first calls of a supplier raise. -/
def World.refusals (w : World) (r : RuleId) (n : Nat) : Nat :=
  (List.range n).countP fun k => !(w.supply r k).isOk

namespace Memory

/-- Every call of a supplier raised, but for the one that gave the body where there is one. -/
def BuiltOnce (w : World) (m : Memory) : Prop :=
  ∀ r, (m.cell r).calls = w.refusals r (m.cell r).calls + if (m.cell r).body.isSome then 1 else 0

/-- Where there is a body it stays, and its supplier is not called again. -/
def Kept (m m' : Memory) : Prop :=
  ∀ r p, (m.cell r).body = some p →
    (m'.cell r).calls = (m.cell r).calls ∧ (m'.cell r).body = some p

/-- One step down in a parser, or from a rule to the body that is remembered. -/
inductive Leads (m : Memory) : Parser → Parser → Prop
  | down {p q : Parser} : p.Down q → Leads m p q
  | body {r : RuleId} {name : Text} {q : Parser} : (m.cell r).body = some q →
    Leads m (.rule r name) q

/-- A rule that can be reached from one of some parsers, through the bodies that are remembered. -/
def Reaches (m : Memory) (ps : List Parser) (r : RuleId) : Prop :=
  ∃ p ∈ ps, ∃ name, ReflTransGen m.Leads p (.rule r name)

/-- Bodies stay, and only the suppliers of rules that can be reached are called. -/
structure Drawn (ps : List Parser) (m m' : Memory) : Prop where
  kept : m.Kept m'
  reached (r : RuleId) : (m'.cell r).calls ≠ (m.cell r).calls → m'.Reaches ps r

end Memory

variable {w : World} {α β : Type}

@[simp] theorem World.refusals_zero (w : World) (r : RuleId) : w.refusals r 0 = 0 := rfl

theorem World.refusals_succ (w : World) (r : RuleId) (n : Nat) :
    w.refusals r (n + 1) = w.refusals r n + if (w.supply r n).isOk then 0 else 1 := by
  simp only [refusals,List.range_succ,List.countP_append,List.countP_singleton]
  cases (w.supply r n).isOk <;> rfl

namespace Memory

variable {m m' m'' : Memory} {r : RuleId} {fault : Fault} {ps qs : List Parser} {p q : Parser}

theorem builtOnce_new (w : World) : ({} : Memory).BuiltOnce w := fun _ => rfl

theorem Learned.builtOnce (h : m.Learned w m') (hm : m.BuiltOnce w) : m'.BuiltOnce w := by
  intro r
  have hr := hm r
  cases h r with
  | stays hcalls hbody => rw [hcalls,hbody,← hr]
  | builds hnone hp hcalls hbody =>
    rw [hnone] at hr
    rw [hcalls,hbody,World.refusals_succ,hp]
    simpa [Except.isOk,Except.toBool] using hr

theorem Stopped.builtOnce (h : m.Stopped w r fault m') (hm : m.BuiltOnce w) : m'.BuiltOnce w := by
  intro s
  by_cases hs : s = r
  · subst hs
    have hr := hm s
    rw [h.missing] at hr
    rw [h.calls,h.unbuilt,World.refusals_succ,h.refused]
    simpa [Except.isOk,Except.toBool] using hr
  · have hlearned : m.Learned w { m' with cell := fun t => if t = r then m.cell r else m'.cell t } := by
      intro t
      by_cases ht : t = r
      · subst ht
        simpa using .stays rfl rfl
      · simpa [ht] using h.others t ht
    simpa [hs] using hlearned.builtOnce hm s

theorem Kept.trans (h : m.Kept m') (h' : m'.Kept m'') : m.Kept m'' := by
  intro r p hp
  obtain ⟨hcalls,hbody⟩ := h r p hp
  obtain ⟨hcalls',hbody'⟩ := h' r p hbody
  exact ⟨hcalls'.trans hcalls,hbody'⟩

/-- What can be reached stays within reach as long as bodies stay. -/
theorem Kept.reachable (h : m.Kept m') (hq : ReflTransGen m.Leads p q) :
    ReflTransGen m'.Leads p q := by
  have hleads (x y : Parser) (hxy : m.Leads x y) : m'.Leads x y := by
    cases hxy with
    | down hy => exact .down hy
    | body hy => exact .body (h _ _ hy).2
  exact ReflTransGen.mono hleads _ _ hq

theorem Reaches.kept (hr : m.Reaches ps r) (h : m.Kept m') : m'.Reaches ps r := by
  obtain ⟨p,hp,name,hpath⟩ := hr
  exact ⟨p,hp,name,h.reachable hpath⟩

theorem Drawn.of_cell (h : ∀ r, (m'.cell r).calls = (m.cell r).calls ∧
    (m'.cell r).body = (m.cell r).body) : Drawn ps m m' where
  kept r _ hp := ⟨(h r).1,(h r).2.trans hp⟩
  reached r hr := absurd (h r).1 hr

theorem Drawn.trans (h : Drawn ps m m') (h' : Drawn ps m' m'') : Drawn ps m m'' where
  kept := h.kept.trans h'.kept
  reached r hr := by
    by_cases hm : (m'.cell r).calls = (m.cell r).calls
    · exact h'.reached r (hm ▸ hr)
    · exact (h.reached r hm).kept h'.kept

/-- What some parsers can reach is reached by all from which they can be. -/
theorem Drawn.of_reachable (h : Drawn qs m m')
    (hq : ∀ q ∈ qs, ∃ p ∈ ps, ReflTransGen m'.Leads p q) : Drawn ps m m' where
  kept := h.kept
  reached r hr := by
    obtain ⟨q,hqs,name,hpath⟩ := h.reached r hr
    obtain ⟨p,hps,hpq⟩ := hq q hqs
    exact ⟨p,hps,name,hpq.trans hpath⟩

end Memory

namespace Run

open Memory

variable {ps qs : List Parser} {p q : Parser} {r : RuleId} {name : Text}

/-- A computation that keeps bodies, and calls only the suppliers of rules that can be reached from
some parsers. -/
def Draws (ps : List Parser) (x : Run α) : Prop :=
  ∀ s : State, s.memory.Drawn ps (x s).2.memory

theorem Draws.of_cell {x : Run α} (h : ∀ s r, ((x s).2.memory.cell r).calls =
    (s.memory.cell r).calls ∧ ((x s).2.memory.cell r).body = (s.memory.cell r).body) : Draws ps x :=
  fun s => .of_cell (h s)

theorem Draws.bind {x : Run α} {f : α → Run β} (hx : Draws ps x) (hf : ∀ a, Draws ps (f a)) :
    Draws ps (x >>= f) := by
  intro s
  have hs := hx s
  rw [bind_apply]
  rcases hx' : x s with ⟨a | fault | _,u⟩
  all_goals rw [hx'] at hs
  · exact hs.trans (hf a u)
  · exact hs
  · exact hs

theorem Draws.of_reachable {x : Run α} (h : Draws qs x)
    (hq : ∀ m : Memory, ∀ q ∈ qs, ∃ p ∈ ps, ReflTransGen m.Leads p q) : Draws ps x :=
  fun s => (h s).of_reachable (hq _)

theorem Draws.down {x : Run α} (h : Draws [q] x) (hq : p.Down q) : Draws [p] x :=
  h.of_reachable fun _ _ hx => ⟨p,by simp,List.mem_singleton.mp hx ▸ .single (.down hq)⟩

theorem draws_asking (ps : List Parser) :
    Rules.Asking fun (α : Type) (x y : Run α) => x = y ∧ Draws ps x where
  done a := ⟨rfl,.of_cell fun _ _ => ⟨rfl,rfl⟩⟩
  bind := by
    rintro α β x _ f g ⟨rfl,hx⟩ hf
    obtain rfl : f = g := funext fun a => (hf a).1
    exact ⟨rfl,hx.bind fun a => (hf a).2⟩
  raise fault := ⟨rfl,.of_cell fun _ _ => ⟨rfl,rfl⟩⟩
  exhaust := ⟨rfl,.of_cell fun _ _ => ⟨rfl,rfl⟩⟩
  known id := ⟨rfl,.of_cell fun _ _ => ⟨rfl,rfl⟩⟩
  pending := ⟨rfl,.of_cell fun _ _ => ⟨rfl,rfl⟩⟩
  keep id units := ⟨rfl,.of_cell fun _ _ => ⟨rfl,rfl⟩⟩

/-- Whether a node is traced or not, the same suppliers are called. -/
theorem Draws.traced {x : Run Outcome} (h : Draws ps x) (w : World) (c : Context) (hook : HookId)
    (name : Text) (i : Int) : Draws ps (Hooks.traced id w c hook name i x) := by
  intro s
  cases Hooks.traced_traces w c hook name id i x s with
  | hidden _ hr =>
    rw [hr]
    exact h s
  | stopped _ _ _ hu =>
    rw [hu]
    exact .of_cell fun _ => ⟨rfl,rfl⟩
  | @heard u _ _ _ _ hu _ _ hm =>
    rw [hm,← hu]
    exact h u

/-- What the body of a rule can reach the rule can, once the body is there. -/
theorem Draws.body {f : Parser → Run α} (hf : ∀ q, Draws (q :: ps) (f q)) :
    Draws (.rule r name :: ps) (Rules.body w r >>= f) := by
  intro s
  -- from the memory with the body in it everything is reached through the rule
  have hgo {q : Parser} {u : State} (hu : (u.memory.cell r).body = some q) :
      u.memory.Drawn (.rule r name :: ps) (f q u).2.memory := by
    have hq := hf q u
    refine hq.of_reachable fun p hp => ?_
    rcases List.mem_cons.mp hp with rfl | hp
    · exact ⟨.rule r name,by simp,.single (.body (hq.kept r p hu).2)⟩
    · exact ⟨p,by simp [hp],.refl⟩
  have hcalled (c : RuleCell) (hb : (s.memory.cell r).body = none) :
      s.memory.Drawn (.rule r name :: ps) (s.memory.setCell r c) := by
    constructor
    · intro t p hp
      rw [cell_setCell]
      split
      · next ht =>
        subst ht
        rw [hb] at hp
        cases hp
      · exact ⟨rfl,hp⟩
    · intro t ht
      obtain rfl : t = r := by
        by_contra hne
        exact ht (by rw [cell_setCell,if_neg hne])
      exact ⟨_,by simp,name,.refl⟩
  cases hb : (s.memory.cell r).body with
  | some q =>
    rw [bind_of_value (Rules.body_known hb)]
    exact hgo hb
  | none =>
    cases hq : w.supply r (s.memory.cell r).calls with
    | ok q =>
      rw [bind_of_value (Rules.body_supplied hb hq)]
      refine Drawn.trans (hcalled _ hb) (hgo (u := s.mapMemory (·.setCell r _)) ?_)
      rw [State.memory_mapMemory,cell_setCell,if_pos rfl]
    | error fault =>
      rw [bind_of_raised (Rules.body_refused hb hq)]
      exact hcalled _ hb

end Run

namespace Rules

open Run

theorem draws_resolve {unit : Parser → Run Bool} (h : ∀ q, Draws [q] (unit q)) (r : RuleId)
    (name : Text) : Draws [.rule r name] (resolve w unit r) := by
  intro s
  cases hu : (s.memory.cell r).unit with
  | some u =>
    rw [resolve_known hu]
    exact .of_cell fun _ => ⟨rfl,rfl⟩
  | none =>
    cases hp : Memory.placeOf r s.memory.resolving with
    | some low =>
      rw [resolve_guessed hu hp]
      exact .of_cell fun _ => ⟨rfl,rfl⟩
    | none =>
      have hentered : s.memory.Drawn [.rule r name] (s.mapMemory (·.enter r)).memory :=
        .of_cell fun _ => ⟨rfl,rfl⟩
      have hbody : Draws [.rule r name] (body w r >>= unit) := .body h
      have hasked := hentered.trans (hbody _)
      rcases hx : (body w r >>= unit) (s.mapMemory (·.enter r)) with ⟨u | fault | _,t⟩
      all_goals rw [hx] at hasked
      · rw [resolve_answered hu hp hx]
        exact hasked.trans (.of_cell (t.memory.cell_settle r u))
      · rw [resolve_raised hu hp hx]
        exact hasked.trans (.of_cell fun _ => ⟨rfl,rfl⟩)
      · rw [resolve_exhausted hu hp hx]
        exact hasked.trans (.of_cell fun _ => ⟨rfl,rfl⟩)

theorem draws_isUnit (w : World) (n : Nat) (p : Parser) : Draws [p] (isUnit w n p) := by
  have h (p : Parser) : isUnit w n p = isUnit w n p ∧ Draws [p] (isUnit w n p) := by
    induction n generalizing p with
    | zero => exact (draws_asking [p]).exhaust
    | succ n ih =>
      refine (draws_asking [p]).isUnit p (fun q hq => ⟨rfl,(ih q).2.down (.child hq)⟩) ?_
      rintro r name rfl
      exact ⟨rfl,draws_resolve (fun q => (ih q).2) r name⟩
  exact (h p).2

end Rules

namespace Parsing

open Run

theorem run_draws (w : World) (c : Context) (n : Nat) (p : Parser) (i : Int) :
    Draws [p] (run w c n p i) := by
  have h (p : Parser) (i : Int) : run w c n p i = run w c n p i ∧ Draws [p] (run w c n p i) := by
    induction n generalizing p i with
    | zero => exact (draws_asking [p]).exhaust
    | succ n ih =>
      have hR := draws_asking [p]
      refine hR.node c.text p i (fun q hq j => ⟨rfl,(ih q j).2.down (.child hq)⟩) ?_ ?_ ?_ ?_
      · rintro id body next name v q rfl hq j
        exact ⟨rfl,(ih q j).2.down (.next hq)⟩
      · rintro id parts rfl
        exact hR.shape id fun q hq => ⟨rfl,(Rules.draws_isUnit w n q).down (.child hq)⟩
      · rintro r name rfl
        refine ⟨rfl,.body fun q => ?_⟩
        cases c.tracesRules with
        | some hook => exact (ih q i).2.traced w c hook name i
        | none => exact (ih q i).2
      · rintro id body name hook rfl
        have hbody : (Parser.log id body name hook).Down body := .child (by simp [Parser.children])
        exact ⟨rfl,fun s =>
          ((ih body i).2.down hbody).traced w c (Hooks.chosen w hook c.hook s.tracing.calls) name i s⟩
  exact (h p i).2

end Parsing

namespace Outline

open Run

/-- A rule that is met among some parsers stands below one of them. -/
theorem below_of_mem_rulesOf {ps : List Parser} {x : Reference} (hx : x ∈ rulesOf ps) :
    ∃ p ∈ ps, ReflTransGen (fun p q => q ∈ p.children) p (.rule x.1 x.2) := by
  induction ps using rulesOf.induct with
  | case1 =>
    rw [rulesOf] at hx
    cases hx
  | case2 r name ps ih =>
    rw [rulesOf] at hx
    rcases List.mem_cons.mp hx with rfl | hx
    · exact ⟨_,by simp,.refl⟩
    · obtain ⟨p,hp,hpath⟩ := ih hx
      exact ⟨p,by simp [hp],hpath⟩
  | case3 p ps hne ih =>
    rw [rulesOf] at hx
    · obtain ⟨q,hq,hpath⟩ := ih hx
      rcases List.mem_append.mp hq with hq | hq
      · exact ⟨p,by simp,.head hq hpath⟩
      · exact ⟨q,by simp [hq],hpath⟩
    · exact hne

/-- What is reached from the rules that are met in a parser is reached from the parser. -/
theorem reachable_of_mem_rulesIn {p : Parser} {x : Reference} (hx : x ∈ rulesIn p) (m : Memory) :
    ReflTransGen m.Leads p (.rule x.1 x.2) := by
  obtain ⟨q,hq,hpath⟩ := below_of_mem_rulesOf hx
  obtain rfl := List.mem_singleton.mp hq
  exact ReflTransGen.mono (fun _ _ h => .down (.child h)) _ _ hpath

theorem draws_sections (w : World) (n : Nat) (seen : List RuleId) (waiting : List Reference) :
    Draws (waiting.map fun x => .rule x.1 x.2) (sections w n seen waiting) := by
  induction n generalizing seen waiting with
  | zero => cases waiting <;> exact .of_cell fun _ _ => ⟨rfl,rfl⟩
  | succ n ih =>
    cases waiting with
    | nil => exact .of_cell fun _ _ => ⟨rfl,rfl⟩
    | cons x waiting =>
      rw [sections,List.map_cons]
      split
      · exact (ih seen waiting).of_reachable fun _ q hq => ⟨q,by simp [hq],.refl⟩
      · refine Draws.body fun q => Draws.bind ?_ fun _ => .of_cell fun _ _ => ⟨rfl,rfl⟩
        refine (ih _ _).of_reachable fun m y hy => ?_
        rw [List.map_append] at hy
        rcases List.mem_append.mp hy with hy | hy
        · exact ⟨y,by simp [hy],.refl⟩
        · obtain ⟨z,hz,rfl⟩ := List.mem_map.mp hy
          exact ⟨q,by simp,reachable_of_mem_rulesIn hz m⟩

theorem draws_explain (w : World) (limit : Nat) (p : Parser) (expand : Bool) :
    Draws [p] (explain w limit p expand) := by
  have hdone {α : Type} (a : α) : Draws [p] (pure a : Run α) := .of_cell fun _ _ => ⟨rfl,rfl⟩
  have hsections : Draws [p] (sections w limit [] (rulesIn p)) := by
    refine (draws_sections w limit [] (rulesIn p)).of_reachable fun m q hq => ?_
    obtain ⟨x,hx,rfl⟩ := List.mem_map.mp hq
    exact ⟨p,by simp,reachable_of_mem_rulesIn hx m⟩
  cases expand with
  | true => exact hsections.bind fun more => hdone _
  | false => exact (hdone []).bind fun more => hdone _

end Outline

/-- Whether a command builds, writes, compares or describes parsers, or names something. -/
def Command.describes : Command → Bool
  | define .. | rule _ | builds | hook .. | missingSpans | write _ | explain _ false | parts _
  | equal .. => true
  | _ => false

namespace Session

variable {s : Session} {c : Command}

theorem state_withParser {e : Expr} {f : Parser → Session → Answer α × Session}
    (h : ∀ p t, t.state = s.state → (f p t).2.state = s.state) :
    (s.withParser e f).2.state = s.state := by
  unfold withParser build
  cases e.toParser s.names (.statement s.statements) with
  | ok p => exact h p _ rfl
  | error fault => rfl

/-- What only describes leaves the state alone, also when it raises. -/
theorem state_of_describes (s : Session) (hc : c.describes = true) :
    (s.perform c).2.state = s.state := by
  unfold perform
  cases c with
  | rule | builds | hook | missingSpans => rfl
  | define | write | parts => exact state_withParser fun _ _ ht => ht
  | equal e f =>
    refine state_withParser fun p t ht => ?_
    exact (state_withParser fun _ _ hu => hu).trans ht
  | explain e expand =>
    cases expand with
    | true => cases hc
    | false => exact state_withParser fun _ _ ht => ht
  | events | parse | expect | unit | sameResult | tracing | sample => cases hc

end Session

namespace Grammar

/-- The parsers whose rules a deed may need the bodies of. -/
def Deed.needs : Deed → List Parser
  | use x => [x.parser]
  | explain _ p true => [p]
  | _ => []

theorem deed_draws (w : World) (x : Deed) (s : State) :
    s.memory.Drawn x.needs (x.perform w s).memory := by
  cases x with
  | use x =>
    cases x with
    | unit limit p => exact Rules.draws_isUnit w limit p s
    | parse limit p t i hook config => exact Parsing.run_draws w _ limit p i (s.setDepth 0)
  | explain limit p expand =>
    cases expand with
    | true => exact Outline.draws_explain w limit p true s
    | false => exact .of_cell fun _ => ⟨rfl,rfl⟩
  | write | equal | ambient => exact .of_cell fun _ => ⟨rfl,rfl⟩

/-- In a deed no supplier refuses, or the first one that does ends it. -/
theorem deed_reports (w : World) (x : Deed) (s : State) :
    s.memory.Learned w (x.perform w s).memory ∨
      ∃ r fault, s.memory.Stopped w r fault (x.perform w s).memory := by
  have hreports {α : Type} {y : Run α} (hy : Run.Reports w y) (s : State) :
      s.memory.Learned w (y s).2.memory ∨ ∃ r fault, s.memory.Stopped w r fault (y s).2.memory :=
    (hy s).imp_right fun ⟨r,fault,_,hstopped,_⟩ => ⟨r,fault,hstopped⟩
  cases x with
  | use x =>
    cases x with
    | unit limit p => exact hreports (Rules.reports_isUnit w limit p) s
    | parse limit p t i hook config =>
      exact hreports (Parsing.run_reports w _ limit p i) (s.setDepth 0)
  | explain limit p expand => exact hreports (Outline.reports_explain w limit p expand) s
  | write | equal | ambient => exact .inl (.refl w _)

/-- What is kept where suppliers give bodies and where one refuses is kept by a whole session. -/
theorem session_invariant {I : Memory → Prop}
    (hlearned : ∀ {m m' : Memory}, m.Learned w m' → I m → I m')
    (hstopped : ∀ {m m' : Memory} {r fault}, m.Stopped w r fault m' → I m → I m') (xs : List Deed)
    {s : State} (hs : I s.memory) : I (xs.foldl (Deed.perform w) s).memory := by
  induction xs generalizing s with
  | nil => exact hs
  | cons x xs ih =>
    rcases deed_reports w x s with h | ⟨r,fault,h⟩
    · exact ih (hlearned h hs)
    · exact ih (hstopped h hs)

/-- In any session every call of a supplier raised but the one that gave the body, and no body is
built again.  Writing, comparing and outlining without the bodies of rules call no supplier, nor does
a command that builds parsers; what calls one could reach its rule. -/
theorem bodies_built_once {xs : List Deed} {s : State} (hs : s.memory = {}) :
    let before := xs.foldl (Deed.perform w) s
    before.memory.BuiltOnce w ∧
      (∀ ys : List Deed, before.memory.Kept (ys.foldl (Deed.perform w) before).memory) ∧
      (∀ x : Deed, before.memory.Drawn x.needs (x.perform w before).memory ∧
        (x.needs = [] → (x.perform w before).memory = before.memory)) ∧
      ∀ (t : Session) (c : Command), c.describes = true → (t.perform c).2.state = t.state := by
  intro before
  have hkept (ys : List Deed) (u : State) :
      u.memory.Kept (ys.foldl (Deed.perform w) u).memory := by
    induction ys generalizing u with
    | nil => exact fun _ _ hp => ⟨rfl,hp⟩
    | cons y ys ih => exact (deed_draws w y u).kept.trans (ih _)
  refine ⟨?_,fun ys => hkept ys before,fun x => ⟨deed_draws w x before,fun hx => ?_⟩,
    fun t c hc => Session.state_of_describes t hc⟩
  · exact session_invariant Memory.Learned.builtOnce Memory.Stopped.builtOnce xs
      (hs ▸ Memory.builtOnce_new w)
  · cases x with
    | use | write | equal | ambient => first | rfl | cases hx
    | explain limit p expand =>
      cases expand with
      | true => cases hx
      | false => rfl

/-- The supplier of brackets refuses at first: asking about the inner rule calls it once for nothing,
and parsing calls it once more, for the body that stays. -/
theorem brackets_built_at_second_call :
    let once : World := ⟨fun r n => if r = .named "brackets" ∧ n = 0 then .error .notReady
      else .ok (bracketed.body r),fun _ => .recording none,fun _ => 0⟩
    let value : Parser := .rule (.named "value") "value".toList
    let before := [Deed.use (.unit 9 value),.use (.parse 9 value "[a]".toList 0 none none)].foldl
      (Deed.perform once) {}
    before.memory.BuiltOnce once ∧ (before.memory.cell (.named "brackets")).calls = 2 ∧
      (before.memory.cell (.named "brackets")).body.isSome := by
  intro once value before
  obtain ⟨honce,-⟩ : before.memory.BuiltOnce once ∧ _ := bodies_built_once rfl
  exact ⟨honce,by decide +kernel,by decide +kernel⟩

end Grammar
end Peg
