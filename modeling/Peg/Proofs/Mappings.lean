import Peg.Proofs.Agreement
import Peg.Proofs.Bounds
import Peg.Proofs.Execution
import Peg.Proofs.Records
import Peg.Proofs.Refusals
import Peg.Proofs.Unlogged

/-! Values that do not steer what is recognised.
Two grammars that differ only in the functions of their maps are run side by side, hooks and all.
Main statement: where these functions always give a value, no filter or flat map looks at what a map
gives, and no hook looks at values or at functions, both parses recognise the same: they end alike at
the same position, capture the same texts and are traced alike. -/
namespace Peg

open Relation

namespace Parser

/-- The same parser but for its maps, where each side has a function that always gives a value, and
the same one unless it is a map that may differ. -/
inductive Recasts (D : Ident → Prop) : Parser → Parser → Prop
  | terminal {id : Ident} {s : Terminal} : Recasts D (.terminal id s) (.terminal id s)
  | seq {id : Ident} {ps qs : List Parser} :
    List.Forall₂ (Recasts D) ps qs → Recasts D (.seq id ps) (.seq id qs)
  | choice {ps qs : List Parser} :
    List.Forall₂ (Recasts D) ps qs → Recasts D (.choice ps) (.choice qs)
  | rep {id : Ident} {p q p' q' : Parser} {least : Quantity} {most : Option Quantity} :
    Recasts D p p' → Recasts D q q' → Recasts D (.rep id p least most q) (.rep id p' least most q')
  | opt {p q : Parser} : Recasts D p q → Recasts D (.opt p) (.opt q)
  | not {p q : Parser} : Recasts D p q → Recasts D (.not p) (.not q)
  | cut {p q : Parser} : Recasts D p q → Recasts D (.cut p) (.cut q)
  | map {id : Ident} {p q : Parser} {f g : Value → Except Fault Value} {name name' : Text} :
    Recasts D p q → (∀ v, ∃ u, f v = .ok u) → (∀ v, ∃ u, g v = .ok u) → (¬ D id → f = g) →
      Recasts D (.map id p f name) (.map id q g name')
  | flatMap {id : Ident} {p q : Parser} {next next' : Value → Except Fault Parser} {name : Text} :
    Recasts D p q → (∀ v, Results (Recasts D) (next v) (next' v)) →
      Recasts D (.flatMap id p next name) (.flatMap id q next' name)
  | filter {id : Ident} {p q : Parser} {test : Value → Except Fault Bool} {name : Text} :
    Recasts D p q → Recasts D (.filter id p test name) (.filter id q test name)
  | capture {p q : Parser} : Recasts D p q → Recasts D (.capture p) (.capture q)
  | rule {r : RuleId} {name : Text} : Recasts D (.rule r name) (.rule r name)
  | log {id : Ident} {p q : Parser} {name : Text} {hook : Option HookId} :
    Recasts D p q → Recasts D (.log id p name hook) (.log id q name hook)

/-- The body whose value a node looks at. -/
def inspected : Parser → Option Parser
  | flatMap _ body .. | filter _ body .. => some body
  | _ => none

def IsCapture (p : Parser) : Prop := ∃ body, p = .capture body

end Parser

namespace World

/-- Two worlds with the same hooks, whose suppliers give parsers that differ only in maps; they may have
the same clock. -/
structure Recasts (D : Ident → Prop) (timed : Prop) (w w' : World) : Prop where
  hook : w'.hook = w.hook
  clock : timed → w'.clock = w.clock
  supply (r : RuleId) (n : Nat) : Results (Parser.Recasts D) (w.supply r n) (w'.supply r n)

/-- No map that may differ lies below a parser, also through rules and through what flat maps go on
with. -/
def Mapless (D : Ident → Prop) (w : World) (p : Parser) : Prop :=
  ∀ id body f name, ReflTransGen w.Leads p (.map id body f name) → ¬ D id

/-- No map that may differ lies below what a filter or a flat map looks at. -/
def Unsteered (D : Ident → Prop) (w : World) (p : Parser) : Prop :=
  ∀ x body, ReflTransGen w.Leads p x → x.inspected = some body → w.Mapless D body

/-- Two parsers that differ only in maps, and not even there if the value is asked for. -/
structure Alike (D : Ident → Prop) (w : World) (same : Prop) (p q : Parser) : Prop where
  recasts : p.Recasts D q
  unsteered : w.Unsteered D p
  mapless : same → w.Mapless D p

end World

/-- The same happens but for the values of successes and for the causes of failures, which differ only
in maps; nodes take as long where the clocks are the same. -/
abbrev Happening.Recasts (D : Ident → Prop) (timed : Prop) : Happening → Happening → Prop :=
  Like (· = ·) (Outcome.Agree False (Parser.Recasts D)) fun d d' => timed → d' = d

/-- The same remembered but for maps, and the same calls made but for values and causes. -/
structure State.Recasts (D : Ident → Prop) (timed : Prop) (w : World) (s s' : State) : Prop where
  memory : s.memory.Paired (Parser.Recasts D) s'.memory
  supplied : s.memory.Supplied w
  twins : s.tracing.Twins (Happening.Recasts D timed) s'.tracing
  readings : timed → s'.tracing.readings = s.tracing.readings

/-- Executions of corresponding parsers from the same position with outcomes that agree, and with
the same text where it is captured; and so inside. -/
inductive Execution.Alike (D : Ident → Prop) : Execution → Execution → Prop
  | mk {p q : Parser} {i : Int} {o o' : Outcome} {xs ys : List Execution} :
    p.Recasts D q → o.Agree p.IsCapture (Parser.Recasts D) o' → List.Forall₂ (Alike D) xs ys →
      Alike D (.mk p i o xs) (.mk q i o' ys)

variable {D : Ident → Prop} {timed : Prop} {w w' : World} {same : Prop} {p q : Parser}

namespace World

theorem Mapless.lead (h : w.Mapless D p) (hq : w.Leads p q) : w.Mapless D q :=
  fun id body f name hm => h id body f name (.head hq hm)

theorem Unsteered.lead (h : w.Unsteered D p) (hq : w.Leads p q) : w.Unsteered D q :=
  fun x body hx hb => h x body (.head hq hx) hb

/-- What can be reached is not left, nor is what lies below what nodes look at, and among that is no
map. -/
theorem unsteered_of_closed (reached below : Parser → Prop) (hp : reached p)
    (hreached : ∀ x y, reached x → w.Leads x y → reached y)
    (hinspected : ∀ x body, reached x → x.inspected = some body → below body)
    (hbelow : ∀ x y, below x → w.Leads x y → below y)
    (hmap : ∀ id body f name, below (.map id body f name) → ¬ D id) : w.Unsteered D p := by
  intro x body hx hb id b f name hm
  have hbody := hinspected x body (reached_of_closed reached hp hreached hx) hb
  exact hmap id b f name (reached_of_closed below hbody hbelow hm)

theorem Unsteered.inspected {body : Parser} (h : w.Unsteered D p) (hb : p.inspected = some body) :
    w.Mapless D body :=
  h p body .refl hb

namespace Alike

theorem lead {x y : Parser} (h : w.Alike D same p q) (hx : w.Leads p x) (hxy : x.Recasts D y) :
    w.Alike D same x y :=
  ⟨hxy,h.unsteered.lead hx,fun hs => (h.mapless hs).lead hx⟩

theorem child {asked : Prop} {x y : Parser} (h : w.Alike D asked p q) (hx : x ∈ p.children)
    (hxy : x.Recasts D y) (hs : same → asked) : w.Alike D same x y :=
  ⟨hxy,h.unsteered.lead (.child hx),fun hsame => (h.mapless (hs hsame)).lead (.child hx)⟩

theorem children {asked : Prop} {ps qs : List Parser} (h : w.Alike D asked p q)
    (hps : ∀ x ∈ ps, x ∈ p.children) (hpq : List.Forall₂ (Parser.Recasts D) ps qs) (hs : same → asked) :
    List.Forall₂ (w.Alike D same) ps qs :=
  forall₂_imp_mem hpq fun x hx _ _ hxy => h.child (hps x hx) hxy hs

/-- Two nodes that differ only in maps below resemble each other; a capture gives the same text
whatever is below. -/
theorem resembles (h : w.Alike D same p q) : p.Resembles (w.Alike D) (same ∨ p.IsCapture) q := by
  have hsame (hc : ¬ p.IsCapture) : same ∨ p.IsCapture → same := fun hs => hs.resolve_right hc
  have hrecasts := h.recasts
  cases hrecasts with
  | terminal => exact .terminal fun _ _ => rfl
  | rule => exact .rule
  | seq hpq => exact .seq (h.children (fun _ hx => hx) hpq (hsame (by simp [Parser.IsCapture])))
  | choice hpq => exact .choice (h.children (fun _ hx => hx) hpq (hsame (by simp [Parser.IsCapture])))
  | rep hp hq =>
    exact .rep (h.child (by simp [Parser.children]) hp (hsame (by simp [Parser.IsCapture])))
      (h.child (by simp [Parser.children]) hq False.elim)
  | opt hpq => exact .opt (h.child (by simp [Parser.children]) hpq (hsame (by simp [Parser.IsCapture])))
  | not hpq => exact .not (h.child (by simp [Parser.children]) hpq False.elim)
  | cut hpq => exact .cut (h.child (by simp [Parser.children]) hpq (hsame (by simp [Parser.IsCapture])))
  | log hpq => exact .log (h.child (by simp [Parser.children]) hpq (hsame (by simp [Parser.IsCapture])))
  | capture hpq => exact .capture (h.child (by simp [Parser.children]) hpq False.elim)
  | @map id x y f g name name' hpq hf hg hfg =>
    have hlooked : same ∨ (Parser.map id x f name).IsCapture → same := hsame (by simp [Parser.IsCapture])
    refine .map (h.child (by simp [Parser.children]) hpq hlooked) fun v v' hv => ?_
    obtain ⟨u,hu⟩ := hf v
    obtain ⟨u',hu'⟩ := hg v'
    rw [hu,hu']
    refine .ok fun hs => ?_
    rw [hv hs,hfg (h.mapless (hlooked hs) id x f name .refl),hu'] at hu
    exact (Except.ok.inj hu).symm
  | filter hpq =>
    refine .filter ⟨hpq,h.unsteered.lead (.child (by simp [Parser.children])),fun _ => ?_⟩
    exact h.unsteered.inspected rfl
  | @flatMap id x y next next' name hpq hn =>
    refine .flatMap ⟨hpq,h.unsteered.lead (.child (by simp [Parser.children])),fun _ => ?_⟩ fun v => ?_
    · exact h.unsteered.inspected rfl
    · have hv := hn v
      generalize hx : next v = a at hv ⊢
      generalize next' v = b at hv ⊢
      cases hv with
      | error fault => exact .error fault
      | ok hz =>
        refine .ok ⟨hz,h.unsteered.lead (.next hx),fun hs => ?_⟩
        exact (h.mapless (hsame (by simp [Parser.IsCapture]) hs)).lead (.next hx)

end Alike
end World

theorem State.recasts_new (D : Ident → Prop) (timed : Prop) (w : World) :
    ({} : State).Recasts D timed w {} where
  memory := ⟨fun _ => ⟨rfl,.none,rfl⟩,rfl,rfl⟩
  supplied := Memory.supplied_new w
  twins := ⟨.nil,rfl⟩
  readings _ := rfl

namespace State.Recasts

variable {s s' : State}

theorem mapMemory {f g : Memory → Memory} (h : s.Recasts D timed w s')
    (hm : (f s.memory).Paired (Parser.Recasts D) (g s'.memory))
    (hc : ∀ r, ((f s.memory).cell r).body = (s.memory.cell r).body) :
    (s.mapMemory f).Recasts D timed w (s'.mapMemory g) where
  memory := hm
  supplied r p hp := h.supplied r p ((hc r).symm.trans hp)
  twins := h.twins
  readings := h.readings

theorem setCell {r : RuleId} {c c' : RuleCell} (h : s.Recasts D timed w s')
    (hc : c.Paired (Parser.Recasts D) c') (hp : ∀ p, c.body = some p → ∃ n, w.supply r n = .ok p) :
    (s.mapMemory (·.setCell r c)).Recasts D timed w (s'.mapMemory (·.setCell r c')) where
  memory := h.memory.setCell hc
  supplied t p hx := by
    rw [State.memory_mapMemory,Memory.cell_setCell] at hx
    split at hx
    · next ht => exact ht ▸ hp p hx
    · exact h.supplied t p hx
  twins := h.twins
  readings := h.readings

theorem relyOn (h : s.Recasts D timed w s') (low : Nat) :
    (s.mapMemory fun m => { m with resolving := Memory.relyOn low m.resolving }).Recasts D timed w
      (s'.mapMemory fun m => { m with resolving := Memory.relyOn low m.resolving }) := by
  refine h.mapMemory ?_ fun _ => rfl
  rw [h.memory.resolving]
  exact h.memory.setResolving _

end State.Recasts

namespace Run

variable {α β : Type} {Q : α → β → Prop}

/-- Two computations that end alike whenever they begin alike. -/
def Recasts (D : Ident → Prop) (timed : Prop) (w : World) (α β : Type) (Q : α → β → Prop) (x : Run α)
    (y : Run β) : Prop :=
  ∀ s s', s.Recasts D timed w s' → (x s).1.Like Q (y s').1 ∧ (x s).2.Recasts D timed w (y s').2

theorem recasts_lockstep (D : Ident → Prop) (timed : Prop) (w : World) :
    Parsing.Lockstep (Recasts D timed w) where
  done hQ _ _ hs := ⟨.value hQ,hs⟩
  raise fault _ _ hs := ⟨.raised fault,hs⟩
  exhaust _ _ hs := ⟨.exhausted,hs⟩
  bind := by
    intro α β γ δ P Q x y f g hx hf s s' hs
    obtain ⟨ha,hu⟩ := hx s s' hs
    rw [bind_apply,bind_apply]
    rcases hx' : x s with ⟨a,u⟩
    rcases hy' : y s' with ⟨b,u'⟩
    rw [hx',hy'] at ha hu
    cases ha with
    | value hab => exact hf _ _ hab u u' hu
    | raised fault => exact ⟨.raised fault,hu⟩
    | exhausted => exact ⟨.exhausted,hu⟩

theorem recasts_modify {f g : State → State}
    (h : ∀ s s', s.Recasts D timed w s' → (f s).Recasts D timed w (g s')) :
    Recasts D timed w Unit Unit (· = ·) (modify f) (modify g) :=
  fun s s' hs => ⟨.value rfl,h s s' hs⟩

theorem recasts_get {f : State → α} (hf : ∀ s s', s.Recasts D timed w s' → f s' = f s) :
    Recasts D timed w α α (· = ·) (get f) (get f) :=
  fun s s' hs => ⟨.value (hf s s' hs).symm,hs⟩

end Run

namespace Rules

open Run

theorem recasts_body (hw : w.Recasts D timed w') (r : RuleId) :
    Run.Recasts D timed w _ _ (fun p q => p.Recasts D q ∧ ∃ n, w.supply r n = .ok p) (body w r)
      (body w' r) := by
  intro s s' hs
  have hcell := hs.memory.cell r
  have hbody := hcell.body
  cases hb : (s.memory.cell r).body with
  | some p =>
    rw [hb] at hbody
    generalize hb' : (s'.memory.cell r).body = b at hbody
    cases hbody with
    | some hpq =>
      rw [body_known hb,body_known hb']
      exact ⟨.value ⟨hpq,hs.supplied r p hb⟩,hs⟩
  | none =>
    rw [hb] at hbody
    generalize hb' : (s'.memory.cell r).body = b at hbody
    cases hbody with
    | none =>
      have hsupply := hw.supply r (s.memory.cell r).calls
      generalize hp : w.supply r (s.memory.cell r).calls = a at hsupply
      generalize hq : w'.supply r (s.memory.cell r).calls = b at hsupply
      have hq' : w'.supply r (s'.memory.cell r).calls = b := hcell.calls ▸ hq
      have hcalls : (s'.memory.cell r).calls + 1 = (s.memory.cell r).calls + 1 :=
        congrArg (· + 1) hcell.calls
      cases hsupply with
      | error fault =>
        rw [body_refused hb hp,body_refused hb' hq']
        exact ⟨.raised fault,hs.setCell ⟨hcalls,hcell.body,hcell.unit⟩ (hs.supplied r)⟩
      | @ok p q hpq =>
        rw [body_supplied hb hp,body_supplied hb' hq']
        refine ⟨.value ⟨hpq,_,hp⟩,hs.setCell ⟨hcalls,.some hpq,hcell.unit⟩ ?_⟩
        rintro _ ⟨⟩
        exact ⟨_,hp⟩

variable {unit unit' : Parser → Run Bool}

theorem recasts_eachUnit {ps qs : List Parser} (hpq : List.Forall₂ (Parser.Recasts D) ps qs)
    (h : ∀ p q, p.Recasts D q → Run.Recasts D timed w _ _ (· = ·) (unit p) (unit' q)) :
    Run.Recasts D timed w _ _ (· = ·) (eachUnit unit ps) (eachUnit unit' qs) := by
  have hR := recasts_lockstep D timed w
  induction hpq with
  | nil => exact hR.done rfl
  | cons hp _ ih => exact hR.same (h _ _ hp) fun u => hR.same ih fun us => hR.done rfl

theorem recasts_allUnit {ps qs : List Parser} (hpq : List.Forall₂ (Parser.Recasts D) ps qs)
    (h : ∀ p q, p.Recasts D q → Run.Recasts D timed w _ _ (· = ·) (unit p) (unit' q)) :
    Run.Recasts D timed w _ _ (· = ·) (allUnit unit ps) (allUnit unit' qs) := by
  have hR := recasts_lockstep D timed w
  induction hpq with
  | nil => exact hR.done rfl
  | cons hp _ ih =>
    refine hR.same (h _ _ hp) fun u => ?_
    cases u with
    | true => exact ih
    | false => exact hR.done rfl

theorem recasts_shape {ps qs : List Parser} (hpq : List.Forall₂ (Parser.Recasts D) ps qs)
    (h : ∀ p q, p.Recasts D q → Run.Recasts D timed w _ _ (· = ·) (unit p) (unit' q)) (id : Ident) :
    Run.Recasts D timed w _ _ (· = ·) (shape unit id ps) (shape unit' id qs) := by
  have hR := recasts_lockstep D timed w
  refine hR.same (recasts_get fun s s' hs => by rw [hs.memory.shape]) fun known => ?_
  cases known with
  | some us => exact hR.done rfl
  | none =>
    refine hR.same (recasts_eachUnit hpq h) fun us => ?_
    refine hR.same (recasts_get fun s s' hs => hs.memory.resolving) fun frames => ?_
    cases frames with
    | cons f fs => exact hR.done rfl
    | nil =>
      refine hR.same (recasts_modify fun s s' hs => ?_) fun _ => hR.done rfl
      exact hs.mapMemory (hs.memory.setShape id us) fun _ => rfl

theorem recasts_resolve (hw : w.Recasts D timed w')
    (h : ∀ p q, p.Recasts D q → Run.Recasts D timed w _ _ (· = ·) (unit p) (unit' q)) (r : RuleId) :
    Run.Recasts D timed w _ _ (· = ·) (resolve w unit r) (resolve w' unit' r) := by
  intro s s' hs
  have hunit := (hs.memory.cell r).unit
  cases hu : (s.memory.cell r).unit with
  | some u =>
    rw [resolve_known hu,resolve_known (hunit.trans hu)]
    exact ⟨.value rfl,hs⟩
  | none =>
    have hu' := hunit.trans hu
    have hresolving := hs.memory.resolving
    cases hp : Memory.placeOf r s.memory.resolving with
    | some low =>
      rw [resolve_guessed hu hp,resolve_guessed hu' (hresolving ▸ hp)]
      exact ⟨.value rfl,hs.relyOn low⟩
    | none =>
      have hp' : Memory.placeOf r s'.memory.resolving = none := hresolving ▸ hp
      have hasked : Run.Recasts D timed w _ _ (· = ·) (body w r >>= unit) (body w' r >>= unit') :=
        (recasts_lockstep D timed w).bind (recasts_body hw r) fun p q hpq => h p q hpq.1
      have henter : (s.mapMemory (·.enter r)).Recasts D timed w (s'.mapMemory (·.enter r)) :=
        hs.mapMemory hs.memory.enter fun _ => rfl
      obtain ⟨ha,ht⟩ := hasked _ _ henter
      rcases hx : (body w r >>= unit) (s.mapMemory (·.enter r)) with ⟨a,t⟩
      rcases hy : (body w' r >>= unit') (s'.mapMemory (·.enter r)) with ⟨b,t'⟩
      rw [hx,hy] at ha ht
      cases ha with
      | @value u _ he =>
        subst he
        rw [resolve_answered hu hp hx,resolve_answered hu' hp' hy]
        have hsettled : (t.mapMemory (·.settle r u)).Recasts D timed w (t'.mapMemory (·.settle r u)) :=
          ht.mapMemory (ht.memory.settle u) fun q => (t.memory.cell_settle r u q).2
        exact ⟨.value rfl,hsettled⟩
      | raised fault =>
        rw [resolve_raised hu hp hx,resolve_raised hu' hp' hy]
        exact ⟨.raised fault,ht.mapMemory ht.memory.leave fun _ => rfl⟩
      | exhausted =>
        rw [resolve_exhausted hu hp hx,resolve_exhausted hu' hp' hy]
        exact ⟨.exhausted,ht.mapMemory ht.memory.leave fun _ => rfl⟩

/-- What a map does is not asked: it makes a value. -/
theorem recasts_isUnit (hw : w.Recasts D timed w') (n : Nat) (h : p.Recasts D q) :
    Run.Recasts D timed w _ _ (· = ·) (isUnit w n p) (isUnit w' n q) := by
  have hR := recasts_lockstep D timed w
  induction n generalizing p q with
  | zero => exact hR.exhaust
  | succ n ih =>
    rw [isUnit.eq_def,isUnit.eq_def]
    cases h with
    | terminal | not | map | flatMap | capture => exact hR.done rfl
    | seq hpq => exact hR.same (recasts_shape hpq (fun _ _ => ih) _) fun us => hR.done rfl
    | choice hpq => exact recasts_allUnit hpq fun _ _ => ih
    | rep hb | opt hb | cut hb | filter hb | log hb => exact ih hb
    | rule => exact recasts_resolve hw (fun _ _ => ih) _

end Rules

namespace Run

variable {α β γ δ : Type} {P : α → β → Prop} {Q : γ → δ → Prop}

theorem Recasts.map {x : Run α} {y : Run β} {f : α → γ} {g : β → δ} (h : Recasts D timed w α β P x y)
    (hfg : ∀ a b, P a b → Q (f a) (g b)) : Recasts D timed w γ δ Q (f <$> x) (g <$> y) := by
  rw [← bind_pure_comp,← bind_pure_comp]
  have hR := recasts_lockstep D timed w
  exact hR.bind h fun a b hab => hR.done (hfg a b hab)

theorem Recasts.imp {x : Run α} {y : Run β} {P' : α → β → Prop} (h : Recasts D timed w α β P x y)
    (hP : ∀ a b, P a b → P' a b) : Recasts D timed w α β P' x y := by
  simpa using h.map (f := id) (g := id) hP

/-- Nodes that end alike are traced alike by hooks that look neither at values nor at causes. -/
theorem Recasts.traced {x : Run α} {y : Run β} (h : Recasts D timed w α β P x y)
    (hw : w.Recasts D timed w') {hook hook' : HookId} (hsame : hook' = hook)
    (hh : (w.hook hook).Follows (Call.Twin (Happening.Recasts D timed)))
    {f : α → Outcome} {g : β → Outcome}
    (hfg : ∀ a b, P a b → (f a).Agree False (Parser.Recasts D) (g b)) (c : Context) (name : Text)
    (i : Int) {s s' : State} (hs : s.Recasts D timed w s') :
    (Hooks.traced f w c hook name i x s).1.Like P (Hooks.traced g w' c hook' name i y s').1 ∧
      (Hooks.traced f w c hook name i x s).2.Recasts D timed w
        (Hooks.traced g w' c hook' name i y s').2 := by
  subst hook'
  have hlast (a : Answer α) (b : Answer β) (u u' : State) (hab : a.Like P b)
      (hu : timed → u'.tracing.readings = u.tracing.readings) :
      Option.Rel (Happening.Recasts D timed)
        (a.happening? f c i s.tracing.depth (Hooks.duration w s u))
        (b.happening? g c i s.tracing.depth (Hooks.duration w' s' u')) := by
    refine hab.happening? hfg rfl _ fun ht => ?_
    rw [Hooks.duration,Hooks.duration,hw.clock ht,hs.readings ht,hu ht]
  have htraces := Hooks.traces_inStep (R := fun k l => timed → l = k) hw.hook hh
    (fun _ _ h ht => congrArg (· + 1) (h ht)) ⟨hs.twins,hs.readings⟩ (.entered rfl) rfl hlast name x y
  cases htraces with
  | hidden hr hr' =>
    rw [hr,hr']
    exact h s s' hs
  | stopped hr hr' hm hm' hw =>
    rw [hr,hr']
    exact ⟨.raised _,by rw [hm,hm']; exact hs.memory,hm ▸ hs.supplied,hw.toTwins,hw.readings⟩
  | @heard v _ _ hm hm' hin hr hr' hsame hum hvm =>
    obtain ⟨ha,hu⟩ := h _ v ⟨by rw [hm,hm']; exact hs.memory,hm ▸ hs.supplied,hin.toTwins,hin.readings⟩
    obtain ⟨htold,hw⟩ := hsame ha ⟨hu.twins,hu.readings⟩
    rw [hr,hr',htold]
    exact ⟨ha.heard _,by rw [← hum,← hvm]; exact hu.memory,hum ▸ hu.supplied,hw.toTwins,hw.readings⟩

end Run

namespace Recorded

variable {α β : Type} {Q : α → β → Prop}

/-- Two recorded computations that end alike and make corresponding executions. -/
def Recasts (D : Ident → Prop) (timed : Prop) (w : World) (α β : Type) (Q : α → β → Prop)
    (x : Recorded α) (y : Recorded β) : Prop :=
  Run.Recasts D timed w _ _ (fun a b => Q a.1 b.1 ∧ List.Forall₂ (Execution.Alike D) a.2 b.2) x.run y.run

theorem recasts_lockstep (D : Ident → Prop) (timed : Prop) (w : World) :
    Parsing.Lockstep (Recasts D timed w) where
  done hQ := (Run.recasts_lockstep D timed w).done ⟨hQ,.nil⟩
  raise fault := (Run.recasts_lockstep D timed w).raise fault
  exhaust := (Run.recasts_lockstep D timed w).exhaust
  bind := by
    intro α β γ δ P Q x y f g hx hf
    have hR := Run.recasts_lockstep D timed w
    refine hR.bind hx fun a b hab => hR.bind (hf _ _ hab.1) fun c d hcd => hR.done ⟨hcd.1,?_⟩
    exact List.rel_append hab.2 hcd.2

theorem recasts_silent {x : Run α} {y : Run β} (h : Run.Recasts D timed w α β Q x y) :
    Recasts D timed w α β Q (silent x) (silent y) :=
  h.map fun _ _ hab => ⟨hab,.nil⟩

end Recorded

namespace Parsing

theorem recasts_record (hw : w.Recasts D timed w')
    (hh : ∀ hook, (w.hook hook).Follows (Call.Twin (Happening.Recasts D timed))) (c : Context)
    (n : Nat) (h : w.Alike D same p q) (i : Int) :
    Recorded.Recasts D timed w _ _ (Outcome.Agree same (Parser.Recasts D)) (record w c n p i)
      (record w' c n q i) := by
  have hR := Recorded.recasts_lockstep D timed w
  induction n generalizing same p q i with
  | zero => exact hR.exhaust
  | succ n ih =>
    have hnode : Recorded.Recasts D timed w _ _ (Outcome.Agree (same ∨ p.IsCapture) (Parser.Recasts D))
        (node (recordedSurroundings w c n) c.text (record w c n) p i)
        (node (recordedSurroundings w' c n) c.text (record w' c n) q i) := by
      have hsame (hc : ¬ p.IsCapture) {x y : Recorded Outcome}
          (hxy : Recorded.Recasts D timed w _ _ (Outcome.Agree same (Parser.Recasts D)) x y) :
          Recorded.Recasts D timed w _ _ (Outcome.Agree (same ∨ p.IsCapture) (Parser.Recasts D)) x y :=
        Run.Recasts.imp hxy fun _ _ hab => ⟨hab.1.imp fun hs => hs.resolve_right hc,hab.2⟩
      have hrecasts := h.recasts
      refine hR.node_agree h.resembles hrecasts i (fun _ _ _ hxy => ih hxy) ?_ ?_ ?_
      · rintro id id' ps qs rfl rfl
        cases hrecasts with
        | seq hpq =>
          refine Recorded.recasts_silent (Rules.recasts_shape hpq (fun x y hxy => ?_) id)
          exact Rules.recasts_isUnit hw n hxy
      · rintro r name r' name' rfl rfl
        cases hrecasts with
        | rule =>
          apply hsame (by simp [Parser.IsCapture])
          refine hR.bind (Recorded.recasts_silent (Rules.recasts_body hw r)) ?_
          rintro x y ⟨hxy,k,hx⟩
          have hbody := ih (h.lead (.body hx) hxy) i
          cases c.tracesRules with
          | some hook =>
            intro s s' hs
            exact Run.Recasts.traced hbody hw rfl (hh hook) (fun _ _ hab => hab.1.imp False.elim) c
              name i hs
          | none => exact hbody
      · rintro id x name hook id' y name' hook' rfl rfl
        cases hrecasts with
        | log hxy =>
          have hbody := ih (h.child (by simp [Parser.children]) hxy fun hs => hs) i
          refine hsame (by simp [Parser.IsCapture]) fun s s' hs => ?_
          have hchosen := Hooks.chosen_twin hw.hook hh hs.twins hook c.hook
          exact Run.Recasts.traced hbody hw hchosen (hh _) (fun _ _ hab => hab.1.imp False.elim) c
            name i hs
    refine hnode.map fun a b hab => ⟨hab.1.imp .inl,.cons ?_ .nil⟩
    exact .mk h.recasts (hab.1.imp .inr) hab.2

/-- What a parse runs, in order, when it has an outcome. -/
def executions (w : World) (limit : Nat) (p : Parser) (t : Text) (i : Int) (hook : Option HookId)
    (config : Option Config) (s : State) : Answer (List Execution) :=
  ((record w ⟨t,hook.or s.ambientHook,config.or s.ambientConfig⟩ limit p i).run
    (s.setDepth 0)).1.map Prod.snd

/-- Values do not steer what is recognised.  Where two grammars differ only in the functions of some
maps, functions of maps always give a value, none of these maps lies below a filter or a flat map, and
hooks look neither at values nor at causes, parsing ends alike: both parses succeed or both fail, at
the same position, with the same cut and with corresponding causes, or both raise the same.  They run
corresponding parsers from the same positions with the same ends, capture the same texts, and tell
their hooks the same but for values and causes, and for durations where the clocks differ. -/
theorem values_do_not_steer (hw : w.Recasts D timed w')
    (hh : ∀ hook, (w.hook hook).Follows (Call.Twin (Happening.Recasts D timed)))
    (hpq : p.Recasts D q) (hp : w.Unsteered D p)
    {s s' : State} (hs : s.Recasts D timed w s') (hhook : s'.ambientHook = s.ambientHook)
    (hconfig : s'.ambientConfig = s.ambientConfig) (limit : Nat) (t : Text) (i : Int)
    (hook : Option HookId) (config : Option Config) :
    let x := parse w limit p t i hook config s
    let y := parse w' limit q t i hook config s'
    x.1.Like (Outcome.Agree False (Parser.Recasts D)) y.1 ∧
      (executions w limit p t i hook config s).Like (List.Forall₂ (Execution.Alike D))
        (executions w' limit q t i hook config s') ∧
      List.Forall₂ (Call.Twin (Happening.Recasts D timed)) x.2.tracing.calls y.2.tracing.calls ∧
      x.2.Recasts D timed w y.2 := by
  intro x y
  have hsame : w.Alike D False p q := ⟨hpq,hp,False.elim⟩
  have hrecord := recasts_record hw hh ⟨t,hook.or s.ambientHook,config.or s.ambientConfig⟩ limit hsame i
  have hrun := Run.Recasts.map hrecord (f := Prod.fst) (g := Prod.fst) fun _ _ hab => hab.1
  change Run.Recasts D timed w _ _ _ (Recorded.forget _) (Recorded.forget _) at hrun
  rw [forget_record,forget_record] at hrun
  have hdepth : (s.setDepth 0).Recasts D timed w (s'.setDepth 0) :=
    { hs with twins := ⟨hs.twins.calls,rfl⟩ }
  have hy : y = run w' ⟨t,hook.or s.ambientHook,config.or s.ambientConfig⟩ limit q i
      (s'.setDepth 0) := by
    rw [← hhook,← hconfig]
    rfl
  obtain ⟨ha,hu⟩ := hrun _ _ hdepth
  rw [hy]
  refine ⟨ha,?_,hu.twins.calls,hu⟩
  have hruns := (Run.Recasts.map hrecord (f := Prod.snd) (g := Prod.snd) fun _ _ hab => hab.2)
    _ _ hdepth
  rw [Run.map_apply,Run.map_apply] at hruns
  rw [executions,executions,hhook,hconfig]
  exact hruns.1

/-- A letter that a function is applied to, or the same in parentheses. -/
def applied (f : Value → Except Fault Value) (name : Text) : Parser :=
  .choice [.seq (.named "group") [.word (.named "open") "(".toList,
      .rule (.named "nest") "nest".toList,.word (.named "close") ")".toList],
    .map (.named "applied") (.log (.named "log") (.capture (.word (.named "x") "x".toList))
      "letter".toList none) f name]

/-- A letter that is looked at before what the rule stands for. -/
def checked : Parser := .seq (.named "checked") [.filter (.named "short") letter
  (fun v => .ok (v.equal (.str "a".toList))) "short".toList,.rule (.named "nest") "nest".toList]
where
  letter : Parser := .capture (.terminal (.named "letter") (.oneOf "ab".toList))

theorem recasts_applied {f g : Value → Except Fault Value} (hf : ∀ v, ∃ u, f v = .ok u)
    (hg : ∀ v, ∃ u, g v = .ok u) (name name' : Text) :
    (applied f name).Recasts (· = .named "applied") (applied g name') :=
  .choice (.cons (.seq (.cons .terminal (.cons .rule (.cons .terminal .nil))))
    (.cons (.map (.log (.capture .terminal)) hf hg fun hne => absurd rfl hne) .nil))

theorem recasts_checked : checked.Recasts D checked :=
  .seq (.cons (.filter (.capture .terminal)) (.cons .rule .nil))

theorem unsteered_checked (f : Value → Except Fault Value) (name : Text) (hook : HookId → Hook)
    (clock : Nat → Rat) :
    World.Unsteered D ⟨fun _ _ => .ok (applied f name),hook,clock⟩ checked := by
  refine World.unsteered_of_closed
    (fun x => x ∈ [checked,.terminal (.named "letter") (.oneOf "ab".toList),applied f name,
      .capture (.word (.named "x") "x".toList),.word (.named "x") "x".toList,checked.letter] ∨
        x ∈ checked.children ∨ x ∈ (applied f name).children ∨
          x ∈ (applied f name).children.flatMap Parser.children)
    (· ∈ [checked.letter,.terminal (.named "letter") (.oneOf "ab".toList)])
    (by simp) ?_ ?_ ?_ (by simp [checked.letter])
  · intro x y hx hl
    simp only [checked,applied,Parser.children,List.flatMap_cons,List.flatMap_nil,List.append_nil,
      List.mem_append,List.mem_cons,List.not_mem_nil,or_false] at hx
    rcases hx with (rfl | rfl | rfl | rfl | rfl | rfl) | (rfl | rfl) | (rfl | rfl) |
      (rfl | rfl | rfl) | rfl
    all_goals cases hl
    all_goals simp_all [Parser.children,checked,applied,Parser.word,checked.letter]
    tauto
  · intro x body hx hb
    simp only [checked,applied,Parser.children,List.flatMap_cons,List.flatMap_nil,List.append_nil,
      List.mem_append,List.mem_cons,List.not_mem_nil,or_false] at hx
    rcases hx with (rfl | rfl | rfl | rfl | rfl | rfl) | (rfl | rfl) | (rfl | rfl) |
      (rfl | rfl | rfl) | rfl
    all_goals cases hb
    simp
  · intro x y hx hl
    simp only [List.mem_cons,List.not_mem_nil,or_false] at hx
    rcases hx with rfl | rfl
    all_goals cases hl
    all_goals simp_all [Parser.children,checked.letter]

/-- Whether the letter in parentheses is dropped or doubled, the same is recognised. -/
theorem dropped_as_doubled :
    let leaf : Ident → Prop := (· = .named "applied")
    let drop : World := ⟨fun _ _ => .ok (applied (fun _ => .ok .none) "drop".toList),
      fun _ => .recording none,fun n => n⟩
    let double : World := ⟨fun _ _ => .ok (applied (fun v => .ok (.tuple [v,v])) "double".toList),
      fun _ => .recording none,fun _ => 0⟩
    let parsed (w : World) : Answer Outcome × State :=
      parse w 12 checked "a(x)".toList 0 none none {}
    (parsed drop).1 = .value (.success (.tuple [.str "a".toList,.none]) 4 false) ∧
      (parsed drop).1.Like (Outcome.Agree False (Parser.Recasts leaf)) (parsed double).1 ∧
      List.Forall₂ (Call.Twin (Happening.Recasts leaf False)) (parsed drop).2.tracing.calls
        (parsed double).2.tracing.calls := by
  intro leaf drop double parsed
  have hw : drop.Recasts leaf False double :=
    ⟨rfl,nofun,fun _ _ => .ok (recasts_applied (fun _ => ⟨_,rfl⟩) (fun _ => ⟨_,rfl⟩) _ _)⟩
  have hh (hook : HookId) :
      (drop.hook hook).Follows (Call.Twin (Happening.Recasts leaf False)) :=
    (Hook.follows_recording none).mono fun _ _ h => h.imp fun _ _ hh =>
      hh.imp (fun _ _ _ => trivial) (fun _ _ _ => trivial) fun _ _ _ => trivial
  have hs : ({} : State).Recasts leaf False drop {} := State.recasts_new leaf False drop
  have hp : drop.Unsteered leaf checked := unsteered_checked _ _ _ _
  have hends : (parsed drop).1 =
      .value (.success (.tuple [.str "a".toList,.none]) 4 false) := rfl
  have h := values_do_not_steer hw hh recasts_checked hp hs rfl rfl 12 "a(x)".toList 0 none none
  dsimp only [parsed] at hends ⊢
  dsimp only at h
  exact ⟨hends,h.1,h.2.2.1⟩

/-- A hook that raises when a node is left without a value. -/
def valuing : Hook where
  shows _ _ := []
  answer _ call :=
    match call.happening with
    | .left _ _ (.success .none _ _) _ _ => .error (.raisedByHook "no value".toList)
    | _ => .ok none

/-- A hook that looks at values steers: it raises where the letter is dropped and not where it is
doubled.  One that raises whatever the value is keeps both parses from an outcome. -/
theorem values_steer_hook :
    let letter (f : Value → Except Fault Value) : Parser := .log (.named "log")
      (.map (.named "applied") (.word (.named "a") "a".toList) f "f".toList) "x".toList none
    let drop := letter fun _ => .ok .none
    let double := letter fun v => .ok (.tuple [v,v])
    let parsed (hook : Hook) (p : Parser) : Answer Outcome :=
      (parse ⟨fun _ _ => .error .notReady,fun _ => hook,fun n => n⟩ 9 p "a".toList 0 none none {}).1
    let loud : Hook := .recording (some .exit)
    drop.Recasts (· = .named "applied") double ∧
      parsed valuing drop = .raised (.raisedByHook "no value".toList) ∧
      parsed valuing double = .value (.success (.tuple [.none,.none]) 1 false) ∧
      parsed loud drop = .raised (.raisedByHook "exit".toList) ∧
      parsed loud double = .raised (.raisedByHook "exit".toList) :=
  ⟨.log (.map .terminal (fun _ => ⟨_,rfl⟩) (fun _ => ⟨_,rfl⟩) fun hne => absurd rfl hne),rfl,rfl,rfl,
    rfl⟩

end Parsing
end Peg
