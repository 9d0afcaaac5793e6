import Peg.Proofs.Asking
import Peg.Proofs.Kinds
import Peg.Proofs.Lockstep
import Peg.Proofs.Meaning

/-! Parsers without their logs.
Two grammars that differ only in logs run side by side.  A log takes one level of nesting, so that
the second one ends like the first when it may nest deep enough.  Main statement: where no hook
raises, a traced parse ends as it does without logs and without tracing, and the same parsers are
unit parsers. -/
namespace Peg

namespace Parser

mutual
/-- The parser without its logs: the body of a log stands where the log stood, also in what a flat
map goes on with. -/
def unlogged : Parser → Parser
  | terminal id t => terminal id t
  | seq id parts => seq id (unloggedAll parts)
  | choice branches => choice (unloggedAll branches)
  | rep id element least most separator => rep id (unlogged element) least most (unlogged separator)
  | opt body => opt (unlogged body)
  | not body => not (unlogged body)
  | cut body => cut (unlogged body)
  | map id body f name => map id (unlogged body) f name
  | flatMap id body next name => flatMap id (unlogged body) (fun v => unloggedNext (next v)) name
  | filter id body test name => filter id (unlogged body) test name
  | capture body => capture (unlogged body)
  | rule r name => rule r name
  | log _ body .. => unlogged body

def unloggedAll : List Parser → List Parser
  | [] => []
  | p :: ps => unlogged p :: unloggedAll ps

def unloggedNext : Except Fault Parser → Except Fault Parser
  | .ok p => .ok (unlogged p)
  | .error fault => .error fault
end

def isLog : Parser → Bool
  | log .. => true
  | _ => false

theorem forall₂_unlogged (ps : List Parser) :
    List.Forall₂ (fun p q => q = p.unlogged) ps (unloggedAll ps) := by
  induction ps with
  | nil => exact .nil
  | cons p ps ih => exact .cons rfl ih

theorem results_unlogged (x : Except Fault Parser) :
    Results (fun p q => q = p.unlogged) x (unloggedNext x) := by
  cases x with
  | ok p => exact .ok rfl
  | error fault => exact .error fault

/-- What holds of all that are no logs, and of a log if it holds of its body, holds of every
parser. -/
@[elab_as_elim]
theorem through_logs {motive : Parser → Prop}
    (log : ∀ id body name hook, motive body → motive (.log id body name hook))
    (other : ∀ p, p.isLog = false → motive p) : ∀ p, motive p
  | .log id body name hook => log id body name hook (through_logs log other body)
  | .terminal .. | .seq .. | .choice .. | .rep .. | .opt .. | .not .. | .cut .. | .map ..
  | .flatMap .. | .filter .. | .capture .. | .rule .. => other _ rfl

theorem isLog_unlogged (p : Parser) : p.unlogged.isLog = false := by
  induction p using through_logs with
  | log id body name hook ih => exact ih
  | other p hp =>
    cases p with
    | log => cases hp
    | _ => rfl

theorem Matches.flip {S : Parser → Parser → Prop} {p q : Parser} (h : p.Matches S q) :
    q.Matches (fun x y => S y x) p := by
  cases h with
  | terminal => exact .terminal
  | seq h => exact .seq h.flip
  | choice h => exact .choice h.flip
  | rep hp hq => exact .rep hp hq
  | flatMap h hn => exact .flatMap h fun v => (hn v).flip
  | rule => exact .rule
  | opt h | not h | cut h | map h | filter h | capture h | log h =>
    constructor
    exact h

end Parser

/-- Parsers of two grammars that are the same but for logs, which may stand before either. -/
structure World.Pairs (w w' : World) (S : Parser → Parser → Prop) : Prop where
  left {id : Ident} {p q : Parser} {name : Text} {hook : Option HookId} :
    S (.log id p name hook) q → S p q
  right {id : Ident} {p q : Parser} {name : Text} {hook : Option HookId} :
    S p (.log id q name hook) → S p q
  node {p q : Parser} : S p q → p.isLog = false → q.isLog = false → p.Matches S q
  supply (r : RuleId) (n : Nat) : Results S (w.supply r n) (w'.supply r n)

/-- The same world without the logs in what suppliers give. -/
def World.unlogged (w : World) : World :=
  { w with supply := fun r n => Parser.unloggedNext (w.supply r n) }

namespace World

variable {w w' : World} {S : Parser → Parser → Prop}

theorem Pairs.flip (h : w.Pairs w' S) : w'.Pairs w fun p q => S q p where
  left := h.right
  right := h.left
  node hs hp hq := (h.node hs hq hp).flip
  supply r n := (h.supply r n).flip

theorem pairs_unlogged (w : World) : w.Pairs w.unlogged fun p q => q = p.unlogged where
  left h := h
  right := by
    intro id p q name hook h
    have hlog := p.isLog_unlogged
    rw [← h] at hlog
    cases hlog
  node := by
    rintro p _ rfl hp -
    cases p with
    | log => cases hp
    | terminal => exact .terminal
    | rule => exact .rule
    | seq id ps => exact .seq (Parser.forall₂_unlogged ps)
    | choice ps => exact .choice (Parser.forall₂_unlogged ps)
    | rep => exact .rep rfl rfl
    | flatMap id body next name => exact .flatMap rfl fun v => Parser.results_unlogged (next v)
    | opt | not | cut | map | filter | capture =>
      constructor
      rfl
  supply r n := Parser.results_unlogged (w.supply r n)

end World

/-- The same is known of two rules, up to bodies that are related. -/
structure RuleCell.Paired (S : Parser → Parser → Prop) (c c' : RuleCell) : Prop where
  calls : c'.calls = c.calls
  body : Option.Rel S c.body c'.body
  unit : c'.unit = c.unit

/-- The same is remembered up to bodies that are related. -/
structure Memory.Paired (S : Parser → Parser → Prop) (m m' : Memory) : Prop where
  cell : ∀ r, (m.cell r).Paired S (m'.cell r)
  shape : m'.shape = m.shape
  resolving : m'.resolving = m.resolving

namespace Memory.Paired

variable {S : Parser → Parser → Prop} {m m' : Memory} {r : RuleId}

theorem flip (h : m.Paired S m') : m'.Paired (fun p q => S q p) m where
  cell r := by
    refine ⟨(h.cell r).calls.symm,?_,(h.cell r).unit.symm⟩
    have hbody := (h.cell r).body
    generalize (m.cell r).body = a at hbody ⊢
    generalize (m'.cell r).body = b at hbody ⊢
    cases hbody with
    | none => exact .none
    | some h => exact .some h
  shape := h.shape.symm
  resolving := h.resolving.symm

theorem setResolving (h : m.Paired S m') (fs : List Frame) :
    ({ m with resolving := fs } : Memory).Paired S { m' with resolving := fs } :=
  ⟨h.cell,h.shape,rfl⟩

theorem setCell (h : m.Paired S m') {c c' : RuleCell} (hc : c.Paired S c') :
    (m.setCell r c).Paired S (m'.setCell r c') where
  cell s := by
    rw [cell_setCell,cell_setCell]
    split
    · exact hc
    · exact h.cell s
  shape := h.shape
  resolving := h.resolving

theorem setShape (h : m.Paired S m') (id : Ident) (us : List Bool) :
    (m.setShape id us).Paired S (m'.setShape id us) where
  cell := h.cell
  shape := by
    rw [Memory.setShape,Memory.setShape,h.shape]
  resolving := h.resolving

theorem enter (h : m.Paired S m') : (m.enter r).Paired S (m'.enter r) := by
  rw [Memory.enter,Memory.enter,h.resolving]
  exact h.setResolving _

theorem leave (h : m.Paired S m') : m.leave.Paired S m'.leave := by
  rw [Memory.leave,Memory.leave,h.resolving]
  exact h.setResolving _

theorem settle (h : m.Paired S m') (u : Bool) : (m.settle r u).Paired S (m'.settle r u) := by
  unfold Memory.settle
  rw [h.resolving]
  cases m.resolving with
  | nil => exact h
  | cons f fs =>
    dsimp only
    split
    · exact h.setResolving _
    · have hc : ({ m.cell r with unit := some u } : RuleCell).Paired S
          { m'.cell r with unit := some u } := ⟨(h.cell r).calls,(h.cell r).body,rfl⟩
      exact (h.setCell hc).setResolving fs

end Memory.Paired

/-- Nested deep enough, a computation ends with this answer and this memory from every state with
that memory. -/
def Nested.Settles {α : Type} (y : Nested α) (m : Memory) (b : Answer α) (v : Memory) : Prop :=
  ∃ deep, ∀ n ≥ deep, ∀ s, s.memory = m → (y n s).1 = b ∧ (y n s).2.memory = v

namespace Nested.Settles

variable {α β : Type} {m v u : Memory}

theorem now {y : Nested α} {b : Answer α}
    (h : ∀ n s, s.memory = m → (y n s).1 = b ∧ (y n s).2.memory = v) : y.Settles m b v :=
  ⟨0,fun n _ => h n⟩

theorem bind {y : Nested α} {f : α → Nested β} {a : α} {b : Answer β}
    (hy : y.Settles m (.value a) v) (hf : (f a).Settles v b u) : (y >>= f).Settles m b u := by
  obtain ⟨deep,hy⟩ := hy
  obtain ⟨deep',hf⟩ := hf
  refine ⟨max deep deep',fun n hn s hs => ?_⟩
  obtain ⟨ha,hv⟩ := hy n (by omega) s hs
  change ((y n >>= fun a => f a n) s).1 = b ∧ ((y n >>= fun a => f a n) s).2.memory = u
  rw [Run.bind_of_value (Prod.ext ha rfl)]
  exact hf n (by omega) _ hv

theorem bind_raised {y : Nested α} {f : α → Nested β} {fault : Fault}
    (hy : y.Settles m (.raised fault) v) : (y >>= f).Settles m (.raised fault) v := by
  obtain ⟨deep,hy⟩ := hy
  refine ⟨deep,fun n hn s hs => ?_⟩
  obtain ⟨ha,hv⟩ := hy n hn s hs
  change ((y n >>= fun a => f a n) s).1 = _ ∧ ((y n >>= fun a => f a n) s).2.memory = v
  rw [Run.bind_of_raised (Prod.ext ha rfl)]
  exact ⟨rfl,hv⟩

theorem succ {y : Nested α} {b : Answer α} (h : Settles (fun n => y (n + 1)) m b v) :
    y.Settles m b v := by
  obtain ⟨deep,h⟩ := h
  refine ⟨deep + 1,fun n hn => ?_⟩
  obtain ⟨k,rfl⟩ := Nat.exists_eq_add_of_le' hn
  exact h (k + deep) (by omega)

end Nested.Settles

/-- A node whose hook never raises runs as it is, from the same memory. -/
theorem Hooks.traced_calm {w : World} {hook : HookId} (h : (w.hook hook).Calm) (c : Context)
    (name : Text) (i : Int) (x : Run Outcome) (s : State) :
    ∃ u, u.memory = s.memory ∧ (traced id w c hook name i x s).1 = (x u).1 ∧
      (traced id w c hook name i x s).2.memory = (x u).2.memory := by
  cases traced_traces w c hook name id i x s with
  | hidden _ hr =>
    rw [hr]
    exact ⟨s,rfl,rfl,rfl⟩
  | stopped _ hf =>
    have hraises := Hook.fault?_of_reply hf
    rw [h] at hraises
    cases hraises
  | @heard u span duration _ _ hu _ hr hm =>
    have htold := told_calm w (v := ⟨hook,span,name,s.tracing.depth⟩) h (x u).2
      ((x u).1.happening? id c i s.tracing.depth duration)
    rw [htold,Answer.heard_none] at hr
    exact ⟨u,hu,hr,hm⟩

namespace Run

variable {S : Parser → Parser → Prop} {α β : Type} {Q : α → β → Prop}

/-- Whenever the first computation ends, the second one ends alike from a paired memory when it is
nested deep enough. -/
def Tracks (S : Parser → Parser → Prop) (α β : Type) (Q : α → β → Prop) (x : Run α)
    (y : Nested β) : Prop :=
  ∀ s m, s.memory.Paired S m → (x s).1 ≠ .exhausted →
    ∃ b v, y.Settles m b v ∧ (x s).1.Like Q b ∧ (x s).2.memory.Paired S v

theorem tracks_lockstep (S : Parser → Parser → Prop) : Parsing.Lockstep (Tracks S) where
  done hQ _ m hm _ := ⟨_,m,.now fun _ _ hs => ⟨rfl,hs⟩,.value hQ,hm⟩
  raise fault _ m hm _ := ⟨_,m,.now fun _ _ hs => ⟨rfl,hs⟩,.raised fault,hm⟩
  exhaust _ _ _ hne := absurd rfl hne
  bind := by
    intro α β γ δ P Q x y f g hx hf s m hm hne
    rw [Run.bind_apply] at hne ⊢
    have hxs := hx s m hm
    rcases hx' : x s with ⟨a | fault | _,u⟩
    all_goals rw [hx'] at hne hxs
    · obtain ⟨b,v,hy,hab,hv⟩ := hxs (by simp)
      cases hab with
      | value hab =>
        obtain ⟨d,v',hg,hcd,hv'⟩ := hf _ _ hab u v hv hne
        exact ⟨d,v',hy.bind hg,hcd,hv'⟩
    · obtain ⟨b,v,hy,hab,hv⟩ := hxs (by simp)
      cases hab
      exact ⟨_,v,hy.bind_raised,.raised fault,hv⟩
    · exact absurd rfl hne

/-- Composing, where the second computation is composed at every depth. -/
theorem Tracks.bind {γ δ : Type} {P : γ → δ → Prop} {x : Run α} {y : Nested β} {f : α → Run γ}
    {g : β → Nested δ} (hx : Tracks S α β Q x y) (hf : ∀ a b, Q a b → Tracks S γ δ P (f a) (g b)) :
    Tracks S γ δ P (x >>= f) fun n => y n >>= fun b => g b n :=
  (tracks_lockstep S).bind hx hf

theorem Tracks.same {γ δ : Type} {P : γ → δ → Prop} {x : Run α} {y : Nested α} {f : α → Run γ}
    {g : α → Nested δ} (hx : Tracks S α α (· = ·) x y) (hf : ∀ a, Tracks S γ δ P (f a) (g a)) :
    Tracks S γ δ P (x >>= f) fun n => y n >>= fun a => g a n :=
  (tracks_lockstep S).same hx hf

theorem Tracks.succ {x : Run α} {y : Nested β} (h : Tracks S α β Q x fun n => y (n + 1)) :
    Tracks S α β Q x y := by
  intro s m hm hne
  obtain ⟨b,v,hy,hab,hv⟩ := h s m hm hne
  exact ⟨b,v,hy.succ,hab,hv⟩

theorem tracks_get {α : Type} {f : State → α} {g : Memory → α} (hf : ∀ s, f s = g s.memory)
    (hg : ∀ {m m' : Memory}, m.Paired S m' → g m' = g m) :
    Tracks S α α (· = ·) (Run.get f) fun _ => Run.get f := by
  intro s m hm _
  refine ⟨.value (g m),m,.now fun n s' hs => ⟨?_,hs⟩,.value ?_,hm⟩
  · rw [Run.get_apply,hf,hs]
  · rw [hf,hg hm]

theorem tracks_modify {f : Memory → Memory}
    (hf : ∀ {m m' : Memory}, m.Paired S m' → (f m).Paired S (f m')) :
    Tracks S Unit Unit (· = ·) (Run.modify (·.mapMemory f)) fun _ => Run.modify (·.mapMemory f) := by
  intro s m hm _
  refine ⟨.value (),f m,.now fun n s' hs => ⟨rfl,?_⟩,.value rfl,hf hm⟩
  rw [Run.modify_apply,State.memory_mapMemory,hs]

variable {w w' : World} {c c' : Context}

/-- Hooks that never raise may be told of nodes on the left. -/
theorem Tracks.tracedLeft {x : Run Outcome} {y : Nested β} {Q : Outcome → β → Prop}
    (h : Tracks S _ _ Q x y) (hw : ∀ hook, (w.hook hook).Calm) (hook : State → HookId) (name : Text)
    (i : Int) : Tracks S _ _ Q (fun s => Hooks.traced id w c (hook s) name i x s) y := by
  intro s m hm hne
  obtain ⟨u,hu,hr,hmem⟩ := Hooks.traced_calm (hw (hook s)) c name i x s
  rw [hr] at hne ⊢
  rw [hmem]
  exact h u m (hu ▸ hm) hne

/-- Hooks that never raise may be told of nodes on the right. -/
theorem Tracks.tracedRight {x : Run α} {y : Nested Outcome} {Q : α → Outcome → Prop}
    (h : Tracks S _ _ Q x y) (hw : ∀ hook, (w'.hook hook).Calm) (hook : State → HookId) (name : Text)
    (i : Int) : Tracks S _ _ Q x fun n s => Hooks.traced id w' c' (hook s) name i (y n) s := by
  intro s m hm hne
  obtain ⟨b,v,⟨deep,hy⟩,hab,hv⟩ := h s m hm hne
  refine ⟨b,v,⟨deep,fun n hn s' hs' => ?_⟩,hab,hv⟩
  obtain ⟨u,hu,hr,hmem⟩ := Hooks.traced_calm (hw (hook s')) c' name i (y n) s'
  rw [hr,hmem]
  exact hy n hn u (hu.trans hs')

end Run

namespace Rules

open Run

variable {w w' : World} {S : Parser → Parser → Prop}

theorem tracks_body (hS : w.Pairs w' S) (r : RuleId) :
    Tracks S _ _ S (body w r) fun _ => body w' r := by
  intro s m hm _
  have hcell := hm.cell r
  have hbody := hcell.body
  have hsupply := hS.supply r (s.memory.cell r).calls
  cases hb : (s.memory.cell r).body with
  | some p =>
    rw [hb] at hbody
    cases hb' : (m.cell r).body with
    | none => rw [hb'] at hbody; cases hbody
    | some q =>
      rw [hb'] at hbody
      cases hbody with
      | some hpq =>
        rw [body_known hb]
        refine ⟨.value q,m,.now fun n s' hs => ?_,.value hpq,hm⟩
        subst hs
        rw [body_known hb']
        exact ⟨rfl,rfl⟩
  | none =>
    rw [hb] at hbody
    cases hb' : (m.cell r).body with
    | some q => rw [hb'] at hbody; cases hbody
    | none =>
      cases hp : w.supply r (s.memory.cell r).calls with
      | ok p =>
        cases hq : w'.supply r (s.memory.cell r).calls with
        | error fault => rw [hp,hq] at hsupply; cases hsupply
        | ok q =>
          rw [hp,hq] at hsupply
          cases hsupply with
          | ok hpq =>
            rw [body_supplied hb hp]
            refine ⟨.value q,m.setCell r { m.cell r with calls := (m.cell r).calls + 1, body := some q },
              .now fun n s' hs => ?_,.value hpq,hm.setCell ⟨?_,.some hpq,hcell.unit⟩⟩
            · subst hs
              rw [body_supplied hb' (hcell.calls ▸ hq)]
              exact ⟨rfl,rfl⟩
            · exact congrArg (· + 1) hcell.calls
      | error fault =>
        cases hq : w'.supply r (s.memory.cell r).calls with
        | ok q => rw [hp,hq] at hsupply; cases hsupply
        | error fault' =>
          rw [hp,hq] at hsupply
          cases hsupply
          rw [body_refused hb hp]
          refine ⟨.raised fault,m.setCell r { m.cell r with calls := (m.cell r).calls + 1 },
            .now fun n s' hs => ?_,.raised fault,hm.setCell ⟨?_,hcell.body,hcell.unit⟩⟩
          · subst hs
            rw [body_refused hb' (hcell.calls ▸ hq)]
            exact ⟨rfl,rfl⟩
          · exact congrArg (· + 1) hcell.calls

variable {unit : Parser → Run Bool} {unit' : Parser → Nested Bool}

theorem tracks_eachUnit {ps qs : List Parser} (hpq : List.Forall₂ S ps qs)
    (h : ∀ p q, S p q → Tracks S _ _ (· = ·) (unit p) (unit' q)) :
    Tracks S _ _ (· = ·) (eachUnit unit ps) fun n => eachUnit (fun q => unit' q n) qs := by
  have hR := tracks_lockstep S
  induction hpq with
  | nil => exact hR.done rfl
  | cons hp _ ih => exact hR.same (h _ _ hp) fun u => hR.same ih fun us => hR.done rfl

theorem tracks_allUnit {ps qs : List Parser} (hpq : List.Forall₂ S ps qs)
    (h : ∀ p q, S p q → Tracks S _ _ (· = ·) (unit p) (unit' q)) :
    Tracks S _ _ (· = ·) (allUnit unit ps) fun n => allUnit (fun q => unit' q n) qs := by
  have hR := tracks_lockstep S
  induction hpq with
  | nil => exact hR.done rfl
  | @cons p q ps qs hp _ ih =>
    refine (h _ _ hp).same fun u => ?_
    cases u with
    | true => exact ih
    | false => exact hR.done rfl

theorem tracks_shape {ps qs : List Parser} (hpq : List.Forall₂ S ps qs)
    (h : ∀ p q, S p q → Tracks S _ _ (· = ·) (unit p) (unit' q)) (id : Ident) :
    Tracks S _ _ (· = ·) (shape unit id ps) fun n => shape (fun q => unit' q n) id qs := by
  have hR := tracks_lockstep S
  have hknown : Tracks S _ _ (· = ·) (Run.get (·.memory.shape id))
      fun _ => Run.get (·.memory.shape id) :=
    tracks_get (g := fun m => m.shape id) (fun _ => rfl) fun hm => by rw [hm.shape]
  have hopen : Tracks S _ _ (· = ·) (Run.get (·.memory.resolving))
      fun _ => Run.get (·.memory.resolving) :=
    tracks_get (g := fun m => m.resolving) (fun _ => rfl) fun hm => hm.resolving
  refine hknown.same fun known => ?_
  cases known with
  | some us => exact hR.done rfl
  | none =>
    refine (tracks_eachUnit hpq h).same fun us => hopen.same fun frames => ?_
    cases frames with
    | nil => exact hR.same (tracks_modify fun hm => hm.setShape id us) fun _ => hR.done rfl
    | cons f fs => exact hR.done rfl

theorem tracks_resolve (hS : w.Pairs w' S)
    (h : ∀ p q, S p q → Tracks S _ _ (· = ·) (unit p) (unit' q)) (r : RuleId) :
    Tracks S _ _ (· = ·) (resolve w unit r) fun n => resolve w' (fun q => unit' q n) r := by
  intro s m hm hne
  have hunit := (hm.cell r).unit
  cases hu : (s.memory.cell r).unit with
  | some u =>
    rw [resolve_known hu]
    refine ⟨.value u,m,.now fun n s' hs => ?_,.value rfl,hm⟩
    subst hs
    rw [resolve_known (hunit.trans hu)]
    exact ⟨rfl,rfl⟩
  | none =>
    have hu' := hunit.trans hu
    cases hp : Memory.placeOf r s.memory.resolving with
    | some low =>
      have hp' : Memory.placeOf r m.resolving = some low := by rw [hm.resolving,hp]
      rw [resolve_guessed hu hp]
      refine ⟨.value true,{ m with resolving := Memory.relyOn low m.resolving },
        .now fun n s' hs => ?_,.value rfl,?_⟩
      · subst hs
        rw [resolve_guessed hu' hp']
        exact ⟨rfl,rfl⟩
      · rw [hm.resolving]
        exact hm.setResolving _
    | none =>
      have hp' : Memory.placeOf r m.resolving = none := by rw [hm.resolving,hp]
      have hasked : Tracks S _ _ (· = ·) (body w r >>= unit)
          fun n => body w' r >>= fun q => unit' q n :=
        (tracks_lockstep S).bind (tracks_body hS r) h
      have hs := hasked (s.mapMemory (·.enter r)) (m.enter r) hm.enter
      rcases hx : (body w r >>= unit) (s.mapMemory (·.enter r)) with ⟨u | fault | _,t⟩
      all_goals rw [hx] at hs
      · obtain ⟨_,v,⟨deep,hy⟩,⟨rfl⟩,hv⟩ := hs (by simp)
        rw [resolve_answered hu hp hx]
        refine ⟨.value u,v.settle r u,⟨deep,fun n hn s' hs' => ?_⟩,.value rfl,hv.settle u⟩
        subst hs'
        obtain ⟨hb,hv'⟩ := hy n hn (s'.mapMemory (·.enter r)) rfl
        change (resolve w' (fun q => unit' q n) r s').1 = _ ∧
          (resolve w' (fun q => unit' q n) r s').2.memory = _
        rw [resolve_answered hu' hp' (Prod.ext hb rfl)]
        exact ⟨rfl,congrArg (·.settle r u) hv'⟩
      · obtain ⟨_,v,⟨deep,hy⟩,⟨⟩,hv⟩ := hs (by simp)
        rw [resolve_raised hu hp hx]
        refine ⟨.raised fault,v.leave,⟨deep,fun n hn s' hs' => ?_⟩,.raised fault,hv.leave⟩
        subst hs'
        obtain ⟨hb,hv'⟩ := hy n hn (s'.mapMemory (·.enter r)) rfl
        change (resolve w' (fun q => unit' q n) r s').1 = _ ∧
          (resolve w' (fun q => unit' q n) r s').2.memory = _
        rw [resolve_raised hu' hp' (Prod.ext hb rfl)]
        exact ⟨rfl,congrArg Memory.leave hv'⟩
      · rw [resolve_exhausted hu hp hx] at hne
        exact absurd rfl hne

/-- The same question is asked of parsers that differ in logs, one level deeper for each log. -/
theorem tracks_isUnit (hS : w.Pairs w' S) (n : Nat) {p q : Parser} (h : S p q) :
    Tracks S _ _ (· = ·) (isUnit w n p) fun m => isUnit w' m q := by
  have hR := tracks_lockstep S
  induction n generalizing p q with
  | zero => exact fun _ _ _ hne => absurd rfl hne
  | succ n ih =>
    by_cases hp : p.isLog = true
    · cases p with
      | log id body name hook => exact ih (hS.left h)
      | _ => cases hp
    induction q using Parser.through_logs with
    | log id body name hook ihq => exact .succ (ihq (hS.right h))
    | other q hq =>
      refine .succ ?_
      have hmatch := hS.node h (by simpa using hp) hq
      cases hmatch with
      | terminal | not | map | flatMap | capture => exact hR.done rfl
      | seq hpq => exact hR.same (tracks_shape hpq (fun _ _ => ih) _) fun us => hR.done rfl
      | choice hpq => exact tracks_allUnit hpq fun _ _ => ih
      | rep hb | opt hb | cut hb | filter hb => exact ih hb
      | rule => exact tracks_resolve hS (fun _ _ => ih) _
      | log => cases hq

end Rules

namespace Parsing

open Run

variable {w w' : World} {S : Parser → Parser → Prop}

/-- Parsers that differ in logs run side by side, where no hook raises. -/
theorem tracks_run (hS : w.Pairs w' S) (hw : ∀ hook, (w.hook hook).Calm)
    (hw' : ∀ hook, (w'.hook hook).Calm) (c c' : Context) (hc : c'.text = c.text) (n : Nat)
    {p q : Parser} (h : S p q) (i : Int) :
    Tracks S _ _ (Outcome.Like (· = ·) S) (run w c n p i) fun m => run w' c' m q i := by
  have hR := tracks_lockstep S
  induction n generalizing p q i with
  | zero => exact fun _ _ _ hne => absurd rfl hne
  | succ n ih =>
    by_cases hp : p.isLog = true
    · cases p with
      | log id body name own =>
        exact (ih (hS.left h) i).tracedLeft hw (fun s => Hooks.chosen w own c.hook s.tracing.calls)
          name i
      | _ => cases hp
    induction q using Parser.through_logs with
    | log id body name own ihq =>
      exact .succ ((ihq (hS.right h)).tracedRight hw'
        (fun s => Hooks.chosen w' own c'.hook s.tracing.calls) name i)
    | other q hq =>
      have hmatch := hS.node h (by simpa using hp) hq
      have hnode : Tracks S _ _ (Outcome.Like (· = ·) S) (run w c (n + 1) p i)
          (node (nestedSurroundings w' c') c'.text (fun q j m => run w' c' m q j) q i) := by
        refine hR.node (hc ▸ c.text.places_self) hmatch h rfl ?_ ?_ ?_ ?_ ?_
        · intro id s _
          rw [hc]
          refine .refl fun j _ => ?_
          cases j with
          | none => exact .none
          | some j => exact .some rfl
        · rintro x y hxy j _ rfl
          exact ih hxy j
        · exact fun id ps qs _ hpq => Rules.tracks_shape hpq (fun _ _ => Rules.tracks_isUnit hS n) id
        · intro r name _
          refine (Rules.tracks_body hS r).bind fun x y hxy => ?_
          have hbody := ih hxy i
          cases c.tracesRules with
          | some hook =>
            cases c'.tracesRules with
            | some hook' =>
              exact (hbody.tracedLeft hw (fun _ => hook) name i).tracedRight hw' (fun _ => hook') name i
            | none => exact hbody.tracedLeft hw (fun _ => hook) name i
          | none =>
            cases c'.tracesRules with
            | some hook' => exact hbody.tracedRight hw' (fun _ => hook') name i
            | none => exact hbody
        · rintro id x y name hook rfl _
          exact absurd rfl hp
      refine .succ ?_
      have hsucc : (fun m => run w' c' (m + 1) q i) =
          node (nestedSurroundings w' c') c'.text (fun q j m => run w' c' m q j) q i := by
        funext m
        exact (run_succ w' c' q i m).symm
      rw [hsucc]
      exact hnode

end Parsing

/-- What is known of a rule, without the logs in its body. -/
def RuleCell.unlogged (c : RuleCell) : RuleCell := { c with body := c.body.map Parser.unlogged }

/-- What is remembered, without logs. -/
def Memory.unlogged (m : Memory) : Memory := { m with cell := fun r => (m.cell r).unlogged }

/-- The same outcome, where a failure is blamed on the parser without its logs. -/
def Outcome.unlogged : Outcome → Outcome
  | success v i cut => success v i cut
  | failure i cause cut => failure i cause.unlogged cut

theorem Memory.paired_unlogged (m : Memory) : m.Paired (fun p q => q = p.unlogged) m.unlogged where
  cell r := by
    refine ⟨rfl,?_,rfl⟩
    change Option.Rel _ (m.cell r).body ((m.cell r).body.map Parser.unlogged)
    cases (m.cell r).body with
    | none => exact .none
    | some p => exact .some rfl
  shape := rfl
  resolving := rfl

namespace Answer

variable {α : Type}

theorem eq_map_unlogged {a b : Answer Outcome}
    (h : a.Like (Outcome.Like (· = ·) fun p q => q = p.unlogged) b) : b = a.map Outcome.unlogged := by
  cases h with
  | raised | exhausted => rfl
  | value h =>
    cases h with
    | success hj => rw [hj]; rfl
    | failure hj hc => rw [hj,hc]; rfl

theorem eq_map_unlogged_of_flip {a b : Answer Outcome}
    (h : b.Like (Outcome.Like (· = ·) fun p q => p = q.unlogged) a) : b = a.map Outcome.unlogged := by
  cases h with
  | raised | exhausted => rfl
  | value h =>
    cases h with
    | success hj => rw [hj]; rfl
    | failure hj hc => rw [hj,hc]; rfl

theorem map_eq_exhausted_iff {β : Type} (f : α → β) (a : Answer α) :
    a.map f = .exhausted ↔ a = .exhausted := by
  cases a <;> simp [map]

/-- If what the first one gives at some depth the second one gives in the long run, and the other
way round, they give the same in the long run. -/
theorem eventually_eq {f : Answer α → Answer α} (hf : ∀ x, f x = .exhausted ↔ x = .exhausted)
    {a b : Nat → Answer α} (hab : ∀ n, a n ≠ .exhausted → ∃ deep, ∀ m ≥ deep, b m = f (a n))
    (hba : ∀ n, b n ≠ .exhausted → ∃ deep, ∀ m ≥ deep, b n = f (a m)) :
    ∃ deep, ∀ m ≥ deep, b m = f (a m) := by
  by_cases h : ∃ n, a n ≠ .exhausted
  · obtain ⟨n,hn⟩ := h
    obtain ⟨deep,hdeep⟩ := hab n hn
    have hb : b deep ≠ .exhausted := by
      rw [hdeep deep (Nat.le_refl deep),Ne,hf]
      exact hn
    obtain ⟨deep',hdeep'⟩ := hba deep hb
    refine ⟨max deep deep',fun m hm => ?_⟩
    rw [hdeep m (by omega),← hdeep deep (Nat.le_refl deep),hdeep' m (by omega)]
  · have ha (n : Nat) : f (a n) = .exhausted := by
      rw [hf]
      by_contra hn
      exact h ⟨n,hn⟩
    refine ⟨0,fun m _ => ?_⟩
    rw [ha]
    by_contra hb
    obtain ⟨deep,hdeep⟩ := hba m hb
    exact hb ((hdeep deep (Nat.le_refl deep)).trans (ha deep))

end Answer

namespace Parsing

variable {w : World}

/-- Tracing only observes: where no hook raises, a parse ends as it does without logs and untraced,
and a parser is a unit parser if it is one without its logs. -/
theorem parse_unlogged (hw : ∀ hook, (w.hook hook).Calm) (p : Parser) (t : Text) (i : Int)
    (hook : Option HookId) (config : Option Config) {s s' : State}
    (hs : s'.memory = s.memory.unlogged) :
    (∃ deep, ∀ limit ≥ deep, (parse w.unlogged limit p.unlogged t i none none s').1 =
      ((parse w limit p t i hook config s).1).map Outcome.unlogged) ∧
    ∃ deep, ∀ limit ≥ deep,
      (Rules.isUnit w.unlogged limit p.unlogged s').1 = (Rules.isUnit w limit p s).1 := by
  have hS := w.pairs_unlogged
  have hmemory : s.memory.Paired (fun p q => q = p.unlogged) s'.memory :=
    hs ▸ s.memory.paired_unlogged
  constructor
  · refine Answer.eventually_eq (Answer.map_eq_exhausted_iff Outcome.unlogged) ?_ ?_
    · intro n hn
      obtain ⟨b,v,⟨deep,hy⟩,hlike,-⟩ := tracks_run hS hw hw
        ⟨t,hook.or s.ambientHook,config.or s.ambientConfig⟩ ⟨t,s'.ambientHook,s'.ambientConfig⟩ rfl n
        rfl i (s.setDepth 0) s'.memory hmemory hn
      refine ⟨deep,fun m hm => ?_⟩
      exact (hy m hm (s'.setDepth 0) rfl).1.trans (Answer.eq_map_unlogged hlike)
    · intro n hn
      obtain ⟨b,v,⟨deep,hy⟩,hlike,-⟩ := tracks_run hS.flip hw hw
        ⟨t,s'.ambientHook,s'.ambientConfig⟩ ⟨t,hook.or s.ambientHook,config.or s.ambientConfig⟩ rfl n
        rfl i (s'.setDepth 0) s.memory hmemory.flip hn
      refine ⟨deep,fun m hm => ?_⟩
      have hleft : (parse w m p t i hook config s).1 = b := (hy m hm (s.setDepth 0) rfl).1
      rw [hleft]
      exact Answer.eq_map_unlogged_of_flip hlike
  · refine Answer.eventually_eq (f := id) (fun _ => Iff.rfl) ?_ ?_
    · intro n hn
      obtain ⟨b,v,⟨deep,hy⟩,hlike,-⟩ := Rules.tracks_isUnit hS n rfl s s'.memory hmemory hn
      refine ⟨deep,fun m hm => ?_⟩
      exact (hy m hm s' rfl).1.trans (Answer.eq_of_like hlike)
    · intro n hn
      obtain ⟨b,v,⟨deep,hy⟩,hlike,-⟩ := Rules.tracks_isUnit hS.flip n rfl s' s.memory hmemory.flip hn
      refine ⟨deep,fun m hm => ?_⟩
      have hleft : (Rules.isUnit w m p s).1 = b := (hy m hm s rfl).1
      rw [id,hleft]
      exact (Answer.eq_of_like hlike).symm

/-- A letter in parentheses, with a log at every level. -/
def loggedNest : Parser := .log (.named "log") (.choice [.seq (.named "group") inner,
    .capture (.word (.named "letter") "x".toList)]) "nest".toList none
where
  inner : List Parser := [.word (.named "open") "(".toList,
    .cut (.log (.named "inner") (.rule (.named "nest") "nest".toList) "inner".toList none),
    .word (.named "close") ")".toList]

theorem parse_nest_unlogged :
    let w : World := ⟨fun _ _ => .ok loggedNest,fun _ => .recording none,fun _ => 0⟩
    (parse w 12 loggedNest "(x)".toList 0 (some .standard) (some ⟨true,some 0⟩) {}).1 =
        .value (.success (.str "x".toList) 3 false) ∧
      (∃ deep, ∀ limit ≥ deep,
        (parse w.unlogged limit loggedNest.unlogged "(x)".toList 0 none none {}).1 =
          ((parse w limit loggedNest "(x)".toList 0 (some .standard) (some ⟨true,some 0⟩)
            {}).1).map Outcome.unlogged) ∧
      ∃ deep, ∀ limit ≥ deep, (Rules.isUnit w.unlogged limit loggedNest.unlogged {}).1 =
        (Rules.isUnit w limit loggedNest {}).1 := by
  intro w
  have hw : ∀ hook, (w.hook hook).Calm := fun _ => Hook.calm_recording
  have ho : (parse w 12 loggedNest "(x)".toList 0 (some .standard) (some ⟨true,some 0⟩) {}).1 =
      .value (.success (.str "x".toList) 3 false) := rfl
  exact ⟨ho,parse_unlogged hw loggedNest "(x)".toList 0 (some .standard) (some ⟨true,some 0⟩) rfl⟩

end Parsing
end Peg
