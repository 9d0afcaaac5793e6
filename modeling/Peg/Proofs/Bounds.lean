import Peg.Proofs.Calls
import Peg.Proofs.Pruning
import Peg.Proofs.Units

/-! Where a parse ends, and what it raises.
Nothing goes back in the text, and only a tuple that stands for a word can lead out of it.  Main
statements: the outcome of a parse lies neither before its start nor past the end of the text, unless
the parse starts there, and then it lies where it starts; and a parse that starts no further back
than the first character raises only what a function, a supplier or a hook raises. -/
namespace Peg

open Relation

/-- Every body that is remembered was given by its supplier. -/
def Memory.Supplied (w : World) (m : Memory) : Prop :=
  ∀ r p, (m.cell r).body = some p → ∃ n, w.supply r n = .ok p

theorem Memory.supplied_new (w : World) : ({} : Memory).Supplied w := fun _ _ h => nomatch h

/-- Such a memory goes with itself without cuts. -/
theorem Memory.Supplied.uncut {w : World} {m : Memory} (h : m.Supplied w) :
    m.Uncut w { m with cell := fun r => (m.cell r).uncut } :=
  ⟨fun _ => rfl,rfl,rfl,h⟩

namespace World

variable {w : World}

theorem Leads.of_down {p q : Parser} (h : p.Down q) : w.Leads p q := by
  cases h with
  | child hq => exact .child hq
  | next hq => exact .next hq

/-- What can be reached from a parser is among the parsers that are not left. -/
theorem reached_of_closed (reached : Parser → Prop) {p q : Parser} (hp : reached p)
    (hstep : ∀ x y, reached x → w.Leads x y → reached y) (hq : ReflTransGen w.Leads p q) :
    reached q := by
  induction hq with
  | refl => exact hp
  | tail _ hl ih => exact hstep _ _ ih hl

/-- What may be raised in a parse by a node that can be reached, a supplier or a hook. -/
inductive Raises (w : World) (p : Parser) (fault : Fault) : Prop
  | node {q : Parser} : ReflTransGen w.Leads p q → q.Raises fault → Raises w p fault
  | supplier {r : RuleId} {n : Nat} : w.supply r n = .error fault → Raises w p fault
  | hook : w.HookRaises fault → Raises w p fault

/-- What hooks raise is like this, where they are told of an error only if there is one like this. -/
def HooksKeep (w : World) (E : Fault → Prop) : Prop :=
  ∀ hook before call fault, (w.hook hook).fault? before call = some fault →
    (call.happening.occasion = .error → ∃ error, E error) → E fault

end World

namespace Run

variable {w : World} {E : Fault → Prop} {α β : Type}

/-- From a memory of supplied bodies a computation gives a value like this, if it gives one, and
raises only faults like this; and it leaves such a memory however it ends. -/
def Gives (w : World) (E : Fault → Prop) (x : Run α) (Q : α → Prop) : Prop :=
  ∀ s, s.memory.Supplied w → (x s).2.memory.Supplied w ∧ (x s).1.Meets Q E True

theorem Gives.imp {x : Run α} {P Q : α → Prop} (h : Gives w E x P) (hPQ : ∀ a, P a → Q a) :
    Gives w E x Q := by
  intro s hs
  obtain ⟨hu,ha⟩ := h s hs
  refine ⟨hu,?_⟩
  rcases hx : (x s).1 with a | fault | _
  · rw [hx] at ha
    exact hPQ a ha
  · rw [hx] at ha
    exact ha
  · exact trivial

theorem Gives.bind {x : Run α} {f : α → Run β} {P : α → Prop} {Q : β → Prop} (hx : Gives w E x P)
    (hf : ∀ a, P a → Gives w E (f a) Q) : Gives w E (x >>= f) Q := by
  intro s hs
  obtain ⟨hu,ha⟩ := hx s hs
  rw [Run.bind_apply]
  rcases h : x s with ⟨a | fault | _,u⟩
  · rw [h] at hu ha
    exact hf a ha u hu
  · rw [h] at hu ha
    exact ⟨hu,ha⟩
  · rw [h] at hu
    exact ⟨hu,trivial⟩

theorem gives_logic (w : World) (E : Fault → Prop) :
    Parsing.Logic E fun (α : Type) (x : Run α) Q => Gives w E x Q where
  done hQ _ hs := ⟨hs,hQ⟩
  imp := Gives.imp
  bind := Gives.bind
  raise hE _ hs := ⟨hs,hE⟩

theorem Gives.of_moves {x : Run α} {Q : α → Prop}
    (hx : x.Moves (fun s s' => s.memory.Supplied w → s'.memory.Supplied w) E) (hQ : ∀ a, Q a) :
    Gives w E x Q := by
  intro s hs
  refine ⟨hx.state s hs,?_⟩
  rcases h : (x s).1 with a | fault | _
  · exact hQ a
  · exact hx.fault h
  · exact trivial

theorem Gives.traced {x : Run Outcome} {Q : Outcome → Prop} (h : Gives w E x Q)
    (hE : w.HooksKeep E) (c : Context) (hook : HookId) (name : Text)
    (i : Int) : Gives w E (Hooks.traced id w c hook name i x) Q := by
  intro s hs
  cases Hooks.traced_traces w c hook name id i x s with
  | hidden _ hr => exact hr ▸ h s hs
  | stopped _ hf ha hu =>
    exact ⟨hu ▸ hs,ha ▸ hE _ _ _ _ (Hook.fault?_of_reply hf) nofun⟩
  | @heard u _ _ _ _ hum _ ha hm =>
    obtain ⟨hu,hQ⟩ := h u (hum ▸ hs)
    refine ⟨hm ▸ hu,?_⟩
    rw [ha]
    rcases Answer.heard_cases _ (x u).1 with he | ⟨fault,hf,he⟩
    · rw [he]
      exact hQ
    · rw [he]
      obtain ⟨hook,before,call,hraise,herror⟩ := Hooks.raised_of_told hf
      refine hE hook before call fault hraise fun ho => ?_
      obtain ⟨error,hx⟩ := herror ho
      rw [hx] at hQ
      exact ⟨error,hQ⟩

theorem Gives.logged {x : Run Outcome} {Q : Outcome → Prop} (h : Gives w E x Q)
    (hE : w.HooksKeep E) (c : Context) (own : Option HookId) (name : Text)
    (i : Int) : Gives w E (Hooks.logged id w c own name i x) Q :=
  fun s => h.traced hE c (Hooks.chosen w own c.hook s.tracing.calls) name i s

end Run

namespace Rules

variable {w : World} {E : Fault → Prop}

theorem allows_supplied (w : World) :
    Allows fun s s' => s.memory.Supplied w → s'.memory.Supplied w where
  refl _ h := h
  trans h h' hs := h' (h hs)
  resolving _ _ h := h
  shape _ _ _ h := h
  settle _ _ u h := (h.uncut.settle u).supplied

theorem gives_body (hE : ∀ r n fault, w.supply r n = .error fault → E fault) (r : RuleId) :
    Run.Gives w E (body w r) fun p => ∃ n, w.supply r n = .ok p := by
  intro s hs
  unfold body
  cases hb : (s.memory.cell r).body with
  | some p =>
    simp only [hb]
    exact ⟨hs,hs r p hb⟩
  | none =>
    simp only [hb]
    cases hp : w.supply r (s.memory.cell r).calls with
    | ok p =>
      refine ⟨(hs.uncut.setCell ?_).supplied,_,hp⟩
      rintro _ ⟨⟩
      exact ⟨_,hp⟩
    | error fault => exact ⟨(hs.uncut.setCell (by simp)).supplied,hE _ _ _ hp⟩

theorem moves_body (hE : ∀ r n fault, w.supply r n = .error fault → E fault) (r : RuleId) :
    (body w r).Moves (fun s s' => s.memory.Supplied w → s'.memory.Supplied w) E := by
  refine ⟨fun s hs => (gives_body hE r s hs).1,fun {s} fault h => ?_⟩
  unfold body at h
  cases hb : (s.memory.cell r).body with
  | some p => simp [hb] at h
  | none =>
    cases hp : w.supply r (s.memory.cell r).calls with
    | ok p => simp [hb,hp] at h
    | error fault' =>
      simp only [hb,hp] at h
      cases h
      exact hE _ _ _ hp

theorem gives_shape (hE : ∀ r n fault, w.supply r n = .error fault → E fault) (n : Nat) (id : Ident)
    (parts : List Parser) {Q : List Bool → Prop} (hQ : ∀ units, Q units) :
    Run.Gives w E (shape (isUnit w n) id parts) Q :=
  .of_moves ((allows_supplied w).ofShape ((allows_supplied w).isUnit (moves_body hE) n) id parts) hQ

end Rules

namespace Parsing

variable {w : World} {c : Context}

/-- Here nothing is known of what may succeed without consuming. -/
theorem conservative_unknown : Parser.Conservative fun _ => True := by
  constructor
  all_goals
    intros
    trivial

/-- A parser gives outcomes that lie where they can, whatever it is and wherever it starts. -/
theorem run_lands {inside : Prop} {E : Fault → Prop}
    (hsupply : ∀ r n fault, w.supply r n = .error fault → E fault)
    (hhook : w.HooksKeep E) (n : Nat) {p : Parser} {i : Int}
    (hp : inside → ∀ id s, ReflTransGen w.Leads p (.terminal id s) → s.offersTuple = false)
    (hE : p.Admits w.Leads E c.text i) :
    Run.Gives w E (run w c n p i) (p.Lands (fun _ => True) c.text inside i) := by
  induction n generalizing p i with
  | zero => exact fun s hs => ⟨hs,trivial⟩
  | succ n ih =>
    have hlead {q : Parser} (hq : w.Leads p q) {j : Int} (hj : i ≤ j) :
        Run.Gives w E (run w c n q j) (q.Lands (fun _ => True) c.text inside j) :=
      ih (fun hin id s hs => hp hin id s (.head hq hs)) (hE.lead hq hj)
    have hsame {q x : Parser} (hq : w.Leads p q) :
        Run.Gives w E (run w c n q i) (x.Lands (fun _ => True) c.text inside i) :=
      (hlead hq (Int.le_refl i)).imp fun o ho => ⟨ho.reaches,fun _ _ _ => trivial⟩
    refine (Run.gives_logic w E).node conservative_unknown p ?_ ?_
      (fun fault hf => hE.raise .refl hf)
      (fun q hq => hlead (.of_down hq.down) (Int.le_refl i))
      (fun q hq j hj _ => hlead (.of_down hq) (Int.le_of_lt hj)) ?_ ?_ ?_
    · rintro hin id s rfl
      exact hp hin id s .refl
    · rintro id s fault rfl hf
      exact hE.scan .refl (Int.le_refl i) hf
    · exact fun id parts _ => Rules.gives_shape hsupply n id parts fun _ => .inr trivial
    · rintro r name rfl
      refine (Rules.gives_body hsupply r).bind fun q ⟨k,hq⟩ => ?_
      cases c.tracesRules with
      | some hook => exact (hsame (.body hq)).traced hhook c hook name i
      | none => exact hsame (.body hq)
    · rintro id body name hook rfl
      exact (hsame (.child (by simp [Parser.children]))).logged hhook c hook name i

/-- If nothing but text stands for a word, the outcome of a parse lies from its start on, and in the
text or at its end unless it starts past that; and then it lies right where it starts. -/
theorem parse_index_bounds {p : Parser}
    (hp : ∀ id s, ReflTransGen w.Leads p (.terminal id s) → s.offersTuple = false) {limit : Nat}
    {t : Text} {i : Int} {hook : Option HookId} {config : Option Config} {s : State}
    (hs : s.memory.Supplied w) {o : Outcome} (ho : (parse w limit p t i hook config s).1 = .value o) :
    i ≤ o.index ∧ o.index ≤ max i t.length ∧
      (0 ≤ i → i ≤ t.length → 0 ≤ o.index ∧ o.index ≤ t.length) ∧
      (t.length < i → o.index = i) := by
  have hE : p.Admits w.Leads (fun _ => True) t i := ⟨fun _ _ => trivial,fun _ _ _ => trivial⟩
  obtain ⟨-,ha⟩ := run_lands (c := ⟨t,hook.or s.ambientHook,config.or s.ambientConfig⟩)
    (fun _ _ _ _ => trivial) (fun _ _ _ _ _ _ => trivial) limit (fun _ : True => hp) hE (s.setDepth 0) hs
  change (parse w limit p t i hook config s).1.Meets _ _ _ at ha
  rw [ho] at ha
  obtain ⟨honward,hpast,hwithin⟩ : t.Reaches True i o.index := ha.reaches
  have hbound := hwithin trivial
  exact ⟨honward,hbound,fun _ _ => ⟨by omega,by omega⟩,hpast⟩

/-- Started no further back than the first character a parse raises only what a node that it can
reach, a supplier or a hook raises. -/
theorem parse_raises {p : Parser} {t : Text} {i : Int} (hi : -t.length ≤ i) {limit : Nat}
    {hook : Option HookId} {config : Option Config} {s : State} (hs : s.memory.Supplied w)
    {fault : Fault} (h : (parse w limit p t i hook config s).1 = .raised fault) :
    w.Raises p fault := by
  have hE : p.Admits w.Leads (w.Raises p) t i :=
    (Parser.admits_raises w.Leads t p i).imp fun fault h =>
      let ⟨_,hq,hf⟩ := h hi
      .node hq hf
  obtain ⟨-,ha⟩ := run_lands (c := ⟨t,hook.or s.ambientHook,config.or s.ambientConfig⟩)
    (fun _ _ _ => .supplier) (fun hook before call _ h _ => .hook ⟨hook,before,call,h⟩) limit
    (fun h : False => h.elim) hE (s.setDepth 0) hs
  change (parse w limit p t i hook config s).1.Meets _ _ _ at ha
  rw [h] at ha
  exact ha

/-- Runs of letters with commas between them. -/
def letterRuns : Parser := .seq (.named "runs") [letters,.opt more]
where
  letters : Parser := .terminal (.named "letters") (.runOf "ab".toList 1)
  comma : Parser := .terminal (.named "comma") (.char ',')
  more : Parser := .seq (.named "more") [comma,.rule (.named "runs") "runs".toList]

theorem letterRuns_words {hook : HookId → Hook} {clock : Nat → Rat} {id : Ident} {s : Terminal}
    (h : ReflTransGen (World.Leads ⟨fun _ _ => .ok letterRuns,hook,clock⟩) letterRuns
      (.terminal id s)) : s.offersTuple = false := by
  have hs : Parser.terminal id s ∈ [letterRuns,letterRuns.letters,.opt letterRuns.more,
      letterRuns.more,letterRuns.comma,.rule (.named "runs") "runs".toList] := by
    refine World.reached_of_closed _ (by simp) (fun x y hx hl => ?_) h
    simp only [List.mem_cons,List.not_mem_nil,or_false] at hx
    rcases hx with rfl | rfl | rfl | rfl | rfl | rfl
    all_goals cases hl
    all_goals simp_all [Parser.children,letterRuns,letterRuns.more,letterRuns.letters,letterRuns.comma]
    all_goals grind
  simp only [List.mem_cons,List.not_mem_nil,or_false,letterRuns,letterRuns.more,letterRuns.letters,
    letterRuns.comma,reduceCtorEq,false_or,or_false,Parser.terminal.injEq] at hs
  rcases hs with ⟨-,rfl⟩ | ⟨-,rfl⟩
  · rfl
  · rfl

/-- From two before the end of the text a run of letters wraps to its start and goes on from there. -/
theorem letterRuns_wrap :
    let w : World := ⟨fun _ _ => .ok letterRuns,fun _ => .recording none,fun _ => 0⟩
    ∃ o, (parse w 9 letterRuns "ab,ab".toList (-2) none none {}).1 = .value o ∧ o.index = 5 ∧
      -2 ≤ o.index ∧ o.index ≤ max (-2) 5 := by
  intro w
  have ho : (parse w 9 letterRuns "ab,ab".toList (-2) none none {}).1 =
      .value (.success .none 5 false) := rfl
  obtain ⟨hstart,hend,-⟩ := parse_index_bounds (fun _ _ => letterRuns_words)
    (Memory.supplied_new w) ho
  exact ⟨_,ho,rfl,hstart,hend⟩

end Parsing
end Peg
