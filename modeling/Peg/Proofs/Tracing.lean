import Peg.Proofs.Visits

/-! What tracing leaves alone.
Hooks are told of a node before and after it runs; they see its outcome only, they do not touch
what a grammar remembers, and a node that is traced gives what it gives, unless a hook raises. -/
namespace Peg

namespace Hooks

variable {α β : Type} (w : World) (c : Context) (hook : HookId) (name : Text)

/-- What hooks are told does not depend on what a node gives besides its outcome. -/
theorem map_traced (i : Int) (f : α → β) (outcome : β → Outcome) (node : Run α) :
    f <$> traced (outcome ∘ f) w c hook name i node =
      traced outcome w c hook name i (f <$> node) := by
  funext s
  rw [Run.map_apply]
  cases hd : Config.hides c.config s.tracing.depth with
  | true => rw [traced_hidden w c hook name i _ hd,traced_hidden w c hook name i _ hd,Run.map_apply]
  | false =>
    cases hf : (w.hook hook).fault? s.tracing.calls (entering c hook name i s.tracing.depth) with
    | some fault =>
      rw [traced_refused c name i _ hd hf,traced_refused c name i _ hd hf]
      rfl
    | none =>
      rw [traced_entered c name i _ hd hf,traced_entered c name i _ hd hf,Run.map_apply]
      dsimp only
      rw [Answer.happening?_map,Answer.map_heard]

theorem map_logged (own : Option HookId) (i : Int) (f : α → β) (outcome : β → Outcome)
    (node : Run α) :
    f <$> logged (outcome ∘ f) w c own name i node = logged outcome w c own name i (f <$> node) := by
  simp only [logged,map_bind,map_traced]

variable (outcome : α → Outcome) (i : Int)

/-- What tracing a node comes to: the node lies too deep to be traced; or its hook raises before it
is run; or it is run one level deeper, and its hook is told of its answer. -/
inductive Traces (node : Run α) (s : State) (r : Answer α × State) : Prop
  | hidden : Config.hides c.config s.tracing.depth = true → r = node s → Traces node s r
  | stopped {fault : Fault} : Config.hides c.config s.tracing.depth = false →
    (w.hook hook).reply s.tracing.calls (entering c hook name i s.tracing.depth) = .error fault →
      r.1 = .raised fault → r.2.memory = s.memory → Traces node s r
  | heard {u : State} {span : Option Nat} {duration : Rat} :
    Config.hides c.config s.tracing.depth = false →
    (w.hook hook).reply s.tracing.calls (entering c hook name i s.tracing.depth) =
      .ok span.isSome →
    u.memory = s.memory → u.tracing.depth = s.tracing.depth + 1 →
    r.1 = (node u).1.heard (told w ⟨hook,span,name,s.tracing.depth⟩ (node u).2
      ((node u).1.happening? outcome c i s.tracing.depth duration)) →
    r.2.memory = (node u).2.memory → r.2.tracing.depth = s.tracing.depth → Traces node s r

theorem traced_traces (node : Run α) (s : State) :
    Traces w c hook name outcome i node s (traced outcome w c hook name i node s) := by
  cases hd : Config.hides c.config s.tracing.depth with
  | true => exact .hidden hd (traced_hidden w c hook name i outcome hd)
  | false =>
    cases hf : (w.hook hook).fault? s.tracing.calls (entering c hook name i s.tracing.depth) with
    | some fault =>
      rw [traced_refused c name i outcome hd hf]
      exact .stopped hd (Hook.reply_of_fault? hf) rfl rfl
    | none =>
      rw [traced_entered c name i outcome hd hf]
      exact .heard (u := inside w c hook name i s) hd (reply_visit w c hook name i s hf) rfl rfl rfl
        (memory_ended ..) (depth_ended ..)

theorem logged_apply (own : Option HookId) (node : Run α) (s : State) :
    logged outcome w c own name i node s =
      traced outcome w c (chosen w own c.hook s.tracing.calls) name i node s := rfl

end Hooks

namespace Run

variable {α β : Type} {R : State → State → Prop} {E : Fault → Prop}

/-- However a computation ends, the state after it is related to the one before it, and what it
raises is of a kind. -/
structure Moves (R : State → State → Prop) (E : Fault → Prop) (x : Run α) : Prop where
  state (s : State) : R s (x s).2
  fault {s : State} {fault : Fault} : (x s).1 = .raised fault → E fault

theorem Moves.bind {x : Run α} {f : α → Run β} (hR : ∀ {s u v}, R s u → R u v → R s v)
    (hx : x.Moves R E) (hf : ∀ a, (f a).Moves R E) : (x >>= f).Moves R E where
  state s := by
    have hs := hx.state s
    rw [Run.bind_apply]
    rcases h : x s with ⟨a | fault | _,u⟩
    · rw [h] at hs
      exact hR hs ((hf a).state u)
    · rw [h] at hs
      exact hs
    · rw [h] at hs
      exact hs
  fault := by
    intro s fault h
    rcases bind_eq_raised_iff.mp (Prod.ext h rfl) with h | ⟨a,u,-,h⟩
    · exact hx.fault (congrArg Prod.fst h)
    · exact (hf a).fault (congrArg Prod.fst h)

end Run

namespace Rules

variable {α : Type}

/-- A relation between states that allows whatever asking changes besides bodies that are built: the
rules that are being answered, and what is kept of an answer. -/
structure Allows (R : State → State → Prop) : Prop where
  refl (s : State) : R s s
  trans {s u v : State} : R s u → R u v → R s v
  resolving (s : State) (fs : List Frame) : R s (s.mapMemory ({ · with resolving := fs }))
  shape (s : State) (id : Ident) (units : List Bool) : R s (s.mapMemory (·.setShape id units))
  settle (s : State) (r : RuleId) (unit : Bool) : R s (s.mapMemory (·.settle r unit))

namespace Allows

variable {w : World} {R : State → State → Prop} {E : Fault → Prop} {unit : Parser → Run Bool}

theorem done (hR : Allows R) (a : α) : (pure a : Run α).Moves R E := ⟨hR.refl,nofun⟩

theorem get (hR : Allows R) (f : State → α) : (Run.get f).Moves R E := ⟨hR.refl,nofun⟩

theorem eachUnit (hR : Allows R) (h : ∀ p, (unit p).Moves R E) (ps : List Parser) :
    (eachUnit unit ps).Moves R E := by
  induction ps with
  | nil => exact hR.done _
  | cons p ps ih => exact .bind hR.trans (h p) fun _ => .bind hR.trans ih fun _ => hR.done _

theorem allUnit (hR : Allows R) (h : ∀ p, (unit p).Moves R E) (ps : List Parser) :
    (allUnit unit ps).Moves R E := by
  induction ps with
  | nil => exact hR.done _
  | cons p ps ih =>
    refine .bind hR.trans (h p) fun u => ?_
    cases u with
    | true => exact ih
    | false => exact hR.done _

theorem ofShape (hR : Allows R) (h : ∀ p, (unit p).Moves R E) (id : Ident) (ps : List Parser) :
    (Rules.shape unit id ps).Moves R E := by
  refine .bind hR.trans (hR.get _) fun known => ?_
  cases known with
  | some us => exact hR.done _
  | none =>
    refine .bind hR.trans (hR.eachUnit h ps) fun us => .bind hR.trans (hR.get _) fun _ => ?_
    split
    · exact .bind hR.trans ⟨fun s => hR.shape s id us,nofun⟩ fun _ => hR.done _
    · exact hR.done _

theorem resolve (hR : Allows R) (hb : ∀ r, (body w r).Moves R E) (h : ∀ p, (unit p).Moves R E)
    (r : RuleId) : (resolve w unit r).Moves R E := by
  have hasked : (body w r >>= unit).Moves R E := .bind hR.trans (hb r) h
  have hopened (s : State) : R s ((body w r >>= unit) (s.mapMemory (·.enter r))).2 :=
    hR.trans (hR.resolving s _) (hasked.state _)
  refine ⟨fun s => ?_,fun {s} fault hfault => ?_⟩
  · unfold Rules.resolve
    cases (s.memory.cell r).unit with
    | some u => exact hR.refl s
    | none =>
      dsimp only
      cases Memory.placeOf r s.memory.resolving with
      | some low => exact hR.resolving s _
      | none =>
        have hs := hopened s
        rcases hx : (body w r >>= unit) (s.mapMemory (·.enter r)) with ⟨u | fault | _,t⟩
        all_goals rw [hx] at hs
        · exact hR.trans hs (hR.settle t r u)
        · exact hR.trans hs (hR.resolving t _)
        · exact hR.trans hs (hR.resolving t _)
  · unfold Rules.resolve at hfault
    cases hu : (s.memory.cell r).unit with
    | some u => simp [hu] at hfault
    | none =>
      cases hp : Memory.placeOf r s.memory.resolving with
      | some low => simp [hu,hp] at hfault
      | none =>
        simp only [hu,hp] at hfault
        rcases hx : (body w r >>= unit) (s.mapMemory (·.enter r)) with ⟨u | fault' | _,t⟩
        all_goals rw [hx] at hfault
        all_goals cases hfault
        exact hasked.fault (congrArg Prod.fst hx)

/-- What a relation allows of single steps it allows of a whole question. -/
theorem isUnit (hR : Allows R) (hb : ∀ r, (body w r).Moves R E) (n : Nat) (p : Parser) :
    (isUnit w n p).Moves R E := by
  induction n generalizing p with
  | zero => exact ⟨hR.refl,nofun⟩
  | succ n ih =>
    rw [isUnit.eq_def]
    cases p with
    | terminal | not | map | flatMap | capture => exact hR.done _
    | seq id ps => exact .bind hR.trans (hR.ofShape ih id ps) fun _ => hR.done _
    | choice ps => exact hR.allUnit ih ps
    | rep | opt | cut | filter | log => exact ih _
    | rule r name => exact hR.resolve hb ih r

end Allows

/-- A computation over what a grammar remembers and nothing else. -/
def OnMemory (x : Run α) : Prop :=
  ∀ s s', s'.memory = s.memory → x s' = ((x s).1,{ s' with memory := (x s).2.memory })

namespace OnMemory

variable {β : Type} {w : World} {unit : Parser → Run Bool}

theorem done (a : α) : OnMemory (pure a : Run α) := by
  intro s s' h
  rw [Run.pure_apply,Run.pure_apply,← h]

theorem get (f : Memory → α) : OnMemory (Run.get fun s => f s.memory) := by
  intro s s' h
  rw [Run.get_apply,Run.get_apply,← h]

theorem modify (f : Memory → Memory) : OnMemory (Run.modify (·.mapMemory f)) := by
  intro s s' h
  rw [Run.modify_apply,Run.modify_apply,State.mapMemory,h]
  rfl

theorem bind {x : Run α} {f : α → Run β} (hx : OnMemory x) (hf : ∀ a, OnMemory (f a)) :
    OnMemory (x >>= f) := by
  intro s s' h
  have hs := hx s s' h
  rw [Run.bind_apply,Run.bind_apply,hs]
  rcases x s with ⟨a | fault | _,u⟩
  · exact hf a u _ rfl
  · rfl
  · rfl

theorem body (r : RuleId) : OnMemory (body w r) := by
  intro s s' h
  unfold Rules.body State.mapMemory
  rw [h]
  cases hb : (s.memory.cell r).body with
  | some p =>
    simp only [hb]
    rw [← h]
  | none =>
    simp only [hb]
    cases w.supply r (s.memory.cell r).calls <;> rfl

theorem eachUnit (h : ∀ p, OnMemory (unit p)) (ps : List Parser) :
    OnMemory (eachUnit unit ps) := by
  induction ps with
  | nil => exact done _
  | cons p ps ih => exact (h p).bind fun _ => ih.bind fun _ => done _

theorem allUnit (h : ∀ p, OnMemory (unit p)) (ps : List Parser) : OnMemory (allUnit unit ps) := by
  induction ps with
  | nil => exact done _
  | cons p ps ih =>
    refine (h p).bind fun u => ?_
    cases u with
    | true => exact ih
    | false => exact done _

theorem shape (h : ∀ p, OnMemory (unit p)) (id : Ident) (ps : List Parser) :
    OnMemory (shape unit id ps) := by
  refine (get fun m => m.shape id).bind fun known => ?_
  cases known with
  | some us => exact done _
  | none =>
    refine (eachUnit h ps).bind fun us => (get (·.resolving)).bind fun frames => ?_
    split
    · exact (modify _).bind fun _ => done _
    · exact done _

theorem resolve (h : ∀ p, OnMemory (unit p)) (r : RuleId) : OnMemory (resolve w unit r) := by
  intro s s' hm
  unfold Rules.resolve
  rw [hm]
  cases (s.memory.cell r).unit with
  | some u => exact done u s s' hm
  | none =>
    dsimp only
    cases Memory.placeOf r s.memory.resolving with
    | some low =>
      dsimp only
      rw [State.mapMemory,hm]
      rfl
    | none =>
      have henter : (s'.mapMemory (·.enter r)).memory = (s.mapMemory (·.enter r)).memory :=
        congrArg (·.enter r) hm
      have hasked : OnMemory (Rules.body w r >>= unit) := (body r).bind h
      dsimp only
      rw [hasked _ _ henter]
      rcases (Rules.body w r >>= unit) (s.mapMemory (·.enter r)) with ⟨u | fault | _,v⟩ <;> rfl

/-- Asking whether a parser is a unit parser looks at what is remembered only. -/
theorem isUnit (n : Nat) (p : Parser) : OnMemory (isUnit w n p) := by
  induction n generalizing p with
  | zero =>
    intro s s' h
    change (Answer.exhausted,s') = (Answer.exhausted,{ s' with memory := s.memory })
    rw [← h]
  | succ n ih =>
    rw [isUnit.eq_def]
    cases p with
    | terminal | not | map | flatMap | capture => exact done _
    | seq id ps => exact (shape ih id ps).bind fun _ => done _
    | choice ps => exact allUnit ih ps
    | rep | opt | cut | filter | log => exact ih _
    | rule r name => exact resolve ih r

end OnMemory

/-- A computation that no hook is told of. -/
def Untold (x : Run α) : Prop := ∀ s, (x s).2.tracing = s.tracing

theorem OnMemory.untold {x : Run α} (h : OnMemory x) : Untold x := by
  intro s
  rw [h s s rfl]

variable (w : World)

theorem untold_body (r : RuleId) : Untold (body w r) := (OnMemory.body r).untold

theorem untold_shape (n : Nat) (id : Ident) (ps : List Parser) : Untold (shape (isUnit w n) id ps) :=
  (OnMemory.shape (OnMemory.isUnit n) id ps).untold

end Rules
end Peg
