import Peg.Parsing

/-! Traced nodes in full: which calls are made for a node, and the state that each of them leaves.
Main statements: one equation for each way in which tracing a node can begin. -/
namespace Peg

/-- What is told of two nodes: the same, but for places, outcomes and durations that are related. -/
inductive Happening.Like (I : Context × Int → Context × Int → Prop) (O : Outcome → Outcome → Prop)
    (D : Rat → Rat → Prop) : Happening → Happening → Prop
  | entered {c c' : Context} {i i' : Int} {now : Nat} :
    I (c,i) (c',i') → Like I O D (.entered c i now) (.entered c' i' now)
  | left {c c' : Context} {i i' : Int} {o o' : Outcome} {d d' : Rat} {now : Nat} :
    I (c,i) (c',i') → O o o' → D d d' → Like I O D (.left c i o d now) (.left c' i' o' d' now)
  | failed {fault : Fault} {d d' : Rat} :
    D d d' → Like I O D (.failed fault d) (.failed fault d')

theorem Happening.Like.imp {I I' : Context × Int → Context × Int → Prop}
    {O O' : Outcome → Outcome → Prop} {D D' : Rat → Rat → Prop} {x y : Happening}
    (h : Like I O D x y) (hI : ∀ p q, I p q → I' p q) (hO : ∀ o o', O o o' → O' o o')
    (hD : ∀ d d', D d d' → D' d d') : Like I' O' D' x y := by
  cases h with
  | entered hi => exact .entered (hI _ _ hi)
  | left hi ho hd => exact .left (hI _ _ hi) (hO _ _ ho) (hD _ _ hd)
  | failed hd => exact .failed (hD _ _ hd)

theorem Happening.Like.eq {x y : Happening} (h : Like (· = ·) (· = ·) (· = ·) x y) : y = x := by
  cases h with
  | entered hi => cases hi; rfl
  | left hi ho hd => cases hi; rw [ho,hd]
  | failed hd => rw [hd]

theorem Happening.Like.self {I : Context × Int → Context × Int → Prop}
    {O : Outcome → Outcome → Prop} {D : Rat → Rat → Prop} (hI : ∀ p, I p p) (hO : ∀ o, O o o)
    (hD : ∀ d, D d d) (x : Happening) : Like I O D x x := by
  cases x with
  | entered => exact .entered (hI _)
  | left => exact .left (hI _) (hO _) (hD _)
  | failed => exact .failed (hD _)

/-- Two calls of one hook for nodes of one name and depth, which tell related things; both have a span
or neither has one. -/
structure Call.Alike (P : Happening → Happening → Prop) (call call' : Call) : Prop where
  hook : call'.hook = call.hook
  span : call'.span.isSome = call.span.isSome
  name : call'.name = call.name
  depth : call'.depth = call.depth
  happening : P call.happening call'.happening

theorem Call.Alike.imp {P Q : Happening → Happening → Prop} {call call' : Call}
    (h : call.Alike P call') (hPQ : ∀ x y, P x y → Q x y) : call.Alike Q call' :=
  ⟨h.hook,h.span,h.name,h.depth,hPQ _ _ h.happening⟩

/-- The call as its hook gets it: a node that is entered has no span yet. -/
def Call.asked (call : Call) : Call :=
  match call.happening with
  | .entered .. => { call with span := none }
  | _ => call

namespace Hook

/-- What a hook raises at a call, if it does. -/
def fault? (h : Hook) (before : List Call) (call : Call) : Option Fault :=
  match h.answer before call with
  | .ok _ => none
  | .error fault => some fault

/-- What a hook raises at a call, or whether it gives a span to a node that is entered. -/
def reply (h : Hook) (before : List Call) (call : Call) : Except Fault Bool :=
  (h.answer before call).map fun span => call.happening.occasion = .enter && span.isSome

theorem fault?_eq_of_reply {h h' : Hook} {xs ys : List Call} {call call' : Call}
    (hr : h.reply xs call = h'.reply ys call') : h.fault? xs call = h'.fault? ys call' := by
  unfold reply at hr
  unfold fault?
  cases ha : h.answer xs call <;> cases hb : h'.answer ys call'
  all_goals rw [ha,hb] at hr
  all_goals cases hr
  all_goals rfl

theorem answer_of_fault? {h : Hook} {before : List Call} {call : Call} {fault : Fault}
    (hf : h.fault? before call = some fault) : h.answer before call = .error fault := by
  unfold fault? at hf
  cases ha : h.answer before call
  all_goals rw [ha] at hf
  all_goals cases hf
  rfl

theorem exists_answer_of_fault?_eq_none {h : Hook} {before : List Call} {call : Call}
    (hf : h.fault? before call = none) : ∃ span, h.answer before call = .ok span := by
  unfold fault? at hf
  cases ha : h.answer before call with
  | ok span => exact ⟨span,rfl⟩
  | error =>
    rw [ha] at hf
    cases hf

theorem reply_of_fault? {h : Hook} {before : List Call} {call : Call} {fault : Fault}
    (hf : h.fault? before call = some fault) : h.reply before call = .error fault := by
  rw [reply,answer_of_fault? hf]
  rfl

theorem fault?_of_reply {h : Hook} {before : List Call} {call : Call} {fault : Fault}
    (hr : h.reply before call = .error fault) : h.fault? before call = some fault := by
  unfold reply at hr
  unfold fault?
  cases ha : h.answer before call
  all_goals rw [ha] at hr
  all_goals cases hr
  rfl

/-- A hook that never raises. -/
def Calm (h : Hook) : Prop := ∀ before call, h.fault? before call = none

/-- A hook that raises nothing as long as it is told of no error. -/
def CalmUnlessError (h : Hook) : Prop :=
  ∀ before call, call.happening.occasion ≠ .error → h.fault? before call = none

/-- A hook that heeds no more of the calls before than one relation keeps, and no more of its call
than another one: where both hold it counts as true alike and replies the same. -/
structure Heeds (H : List Call → List Call → Prop) (R : Call → Call → Prop) (h : Hook) : Prop where
  truth {xs ys : List Call} : H xs ys → h.truth ys = h.truth xs
  reply {xs ys : List Call} {call call' : Call} : H xs ys → R call call' →
    h.reply ys call' = h.reply xs call

theorem Heeds.fault? {H : List Call → List Call → Prop} {R : Call → Call → Prop} {h : Hook}
    (hh : h.Heeds H R) {xs ys : List Call} {call call' : Call} (hH : H xs ys) (hR : R call call') :
    h.fault? ys call' = h.fault? xs call :=
  fault?_eq_of_reply (hh.reply hH hR)

theorem Heeds.mono {H H' : List Call → List Call → Prop} {R R' : Call → Call → Prop} {h : Hook}
    (hh : h.Heeds H R) (hH : ∀ xs ys, H' xs ys → H xs ys)
    (hR : ∀ call call', R' call call' → R call call') : h.Heeds H' R' :=
  ⟨fun hxy => hh.truth (hH _ _ hxy),fun hxy hc => hh.reply (hH _ _ hxy) (hR _ _ hc)⟩

/-- A hook without a memory that does not tell related outcomes apart: what it replies depends on its
call only, and not on how long the node took. -/
def Overlooks (O : Outcome → Outcome → Prop) (h : Hook) : Prop :=
  h.Heeds (fun _ _ => True) (Call.Alike (Happening.Like (· = ·) O fun _ _ => True))

theorem Overlooks.imp {O O' : Outcome → Outcome → Prop} {h : Hook} (hh : h.Overlooks O)
    (hO : ∀ o o', O' o o' → O o o') : h.Overlooks O' :=
  hh.mono (fun _ _ h => h) fun _ _ hc => hc.imp fun _ _ hl =>
    hl.imp (fun _ _ h => h) hO fun _ _ h => h

end Hook

/-- What becomes of the answer of a node when its hook is told of it, and raises something or
nothing. -/
def Answer.heard {α : Type} (told : Option Fault) (r : Answer α) : Answer α :=
  match r with
  | .value _ | .raised _ => told.elim r .raised
  | .exhausted => .exhausted

section Heard

variable {α β : Type} {told : Option Fault}

@[simp] theorem Answer.heard_none (r : Answer α) : r.heard none = r := by
  cases r <;> rfl

/-- An answer that is heard of stays as it is, or the hook raises something in its place. -/
theorem Answer.heard_cases (told : Option Fault) (r : Answer α) :
    r.heard told = r ∨ ∃ fault, told = some fault ∧ r.heard told = .raised fault := by
  cases told with
  | none => exact .inl r.heard_none
  | some fault =>
    cases r with
    | value | raised => exact .inr ⟨fault,rfl,rfl⟩
    | exhausted => exact .inl rfl

/-- A fault that is heard of stays a fault, this one or the hook's. -/
theorem Answer.exists_heard_raised (told : Option Fault) (fault : Fault) :
    ∃ fault', (raised fault : Answer α).heard told = .raised fault' :=
  (heard_cases told (raised fault)).elim (fun h => ⟨fault,h⟩) fun ⟨fault',_,h⟩ => ⟨fault',h⟩

theorem Answer.heard_eq_value_iff {a b : α} :
    (Answer.value a).heard told = .value b ↔ told = none ∧ a = b := by
  cases told <;> simp [heard]

/-- A value that is heard of is the node's own. -/
theorem Answer.heard_eq_value {r : Answer α} {a : α} (h : r.heard told = .value a) :
    r = .value a := by
  rcases heard_cases told r with he | ⟨fault,-,he⟩
  · exact he ▸ h
  · rw [he] at h
    cases h

/-- What a hook hears does not depend on the value. -/
theorem Answer.map_heard (f : α → β) (told : Option Fault) (r : Answer α) :
    (r.heard told).map f = (r.map f).heard told := by
  cases told <;> cases r <;> rfl

end Heard

/-- What the calls for one traced node have in common. -/
structure Visit where
  hook : HookId
  span : Option Nat
  name : Text
  depth : Nat

namespace Visit

def call (v : Visit) (happening : Happening) : Call := ⟨v.hook,v.span,v.name,v.depth,happening⟩

@[simp] theorem hook_call (v : Visit) (happening : Happening) : (v.call happening).hook = v.hook :=
  rfl

end Visit

/-- What is told at the end of a node that gave an answer; nothing is told of what is no error. -/
def Answer.happening? {α : Type} (outcome : α → Outcome) (c : Context) (i : Int) (depth : Nat)
    (duration : Rat) (r : Answer α) : Option Happening :=
  match r with
  | .value a => some (.left c i (outcome a) duration depth)
  | .raised fault => if fault.isError then some (.failed fault duration) else none
  | .exhausted => none

theorem Answer.happening?_map {α β : Type} (f : α → β) (outcome : β → Outcome) (c : Context) (i : Int)
    (depth : Nat) (duration : Rat) (r : Answer α) :
    (r.map f).happening? outcome c i depth duration =
      r.happening? (outcome ∘ f) c i depth duration := by
  cases r <;> rfl

/-- Some hook raises this at some call. -/
def World.HookRaises (w : World) (fault : Fault) : Prop :=
  ∃ hook before call, (w.hook hook).fault? before call = some fault

namespace Hooks

variable (w : World) (c : Context) (hook : HookId) (name : Text) (i : Int)

/-- Which hook is chosen is settled by which of them count as true. -/
theorem chosen_eq {w w' : World} {xs ys : List Call}
    (h : ∀ hook, (w'.hook hook).truth ys = (w.hook hook).truth xs) (own given : Option HookId) :
    chosen w' own given ys = chosen w own given xs := by
  simp only [chosen,h]

/-- The call that is made when a node is entered while so many nodes are open. -/
def entering (depth : Nat) : Call := ⟨hook,none,name,depth,.entered c i depth⟩

/-- The visit that begins when a node is entered from a state, with the span that the hook gives. -/
def visit (s : State) : Visit :=
  ⟨hook,
    match (w.hook hook).answer s.tracing.calls (entering c hook name i s.tracing.depth) with
    | .ok span => span
    | .error _ => none,
    name,s.tracing.depth⟩

/-- After a hook was told that a node is entered. -/
def entered (s : State) : State :=
  s.mapTracing (·.tell (w.hook hook) (entering c hook name i s.tracing.depth))

/-- Where a node runs that was entered: the clock was read, and one more node is open. -/
def inside (s : State) : State :=
  (entered w c hook name i s).mapTracing fun t =>
    { t with readings := t.readings + 1, depth := s.tracing.depth + 1 }

/-- How long a node took that was entered from one state and left another one. -/
def duration (s u : State) : Rat :=
  (w.clock u.tracing.readings - w.clock s.tracing.readings) * 1000

/-- After the clock was read again and the hook was told how a visit ended. -/
def closed (v : Visit) (u : State) (happening : Happening) : State :=
  u.mapTracing fun t =>
    { t.tell (w.hook v.hook) (v.call happening) with readings := t.readings + 1, depth := v.depth }

/-- What a hook raises when it is told how a visit ended. -/
def told (v : Visit) (u : State) (happening? : Option Happening) : Option Fault :=
  happening?.bind fun happening => (w.hook v.hook).fault? u.tracing.calls (v.call happening)

theorem told_eq_some {v : Visit} {u : State} {happening? : Option Happening} {fault : Fault}
    (h : told w v u happening? = some fault) : w.HookRaises fault := by
  obtain ⟨happening,-,h⟩ := Option.bind_eq_some_iff.mp h
  exact ⟨_,_,_,h⟩

/-- Hooks are told alike at the end of nodes that both have a span or both have none, where they
heed no more than what is related. -/
theorem told_alike {w w' : World} {hook : HookId} {H : List Call → List Call → Prop}
    {P : Happening → Happening → Prop} (hw : w'.hook hook = w.hook hook)
    (hh : (w.hook hook).Heeds H (Call.Alike P)) {span span' : Option Nat}
    (hspan : span'.isSome = span.isSome) {u u' : State} (hH : H u.tracing.calls u'.tracing.calls)
    {x y : Option Happening} (hxy : Option.Rel P x y) (name : Text) (depth : Nat) :
    told w' ⟨hook,span',name,depth⟩ u' y = told w ⟨hook,span,name,depth⟩ u x := by
  cases hxy with
  | none => rfl
  | some hP =>
    simp only [told,Option.bind_some,Visit.call,hw]
    exact hh.fault? hH ⟨rfl,hspan,rfl,rfl,hP⟩

/-- A hook that raises at the end of a node is told of an error only if the node raised one. -/
theorem raised_of_told {w : World} {α : Type} {outcome : α → Outcome} {c : Context} {i : Int}
    {depth : Nat} {duration : Rat} {v : Visit} {u : State} {r : Answer α} {fault : Fault}
    (h : told w v u (r.happening? outcome c i depth duration) = some fault) :
    ∃ hook before call, (w.hook hook).fault? before call = some fault ∧
      (call.happening.occasion = .error → ∃ error, r = .raised error) := by
  obtain ⟨happening,hh,h⟩ := Option.bind_eq_some_iff.mp h
  refine ⟨v.hook,_,v.call happening,h,fun he => ?_⟩
  rcases r with a | error | _
  · cases hh
    cases he
  · exact ⟨error,rfl⟩
  · cases hh

/-- What a hook raises in place of a fault it raises when it is told of an error. -/
theorem raises_of_told {w : World} {α : Type} {outcome : α → Outcome} {c : Context} {i : Int}
    {depth : Nat} {duration : Rat} {v : Visit} {u : State} {fault raised : Fault}
    (h : told w v u ((Answer.raised fault : Answer α).happening? outcome c i depth duration) =
      some raised) :
    ∃ hook before call, call.happening.occasion = .error ∧
      (w.hook hook).fault? before call = some raised := by
  obtain ⟨happening,hh,h⟩ := Option.bind_eq_some_iff.mp h
  refine ⟨v.hook,_,v.call happening,?_,h⟩
  dsimp only [Answer.happening?] at hh
  split at hh
  · cases hh
    rfl
  · cases hh

theorem told_calm {v : Visit} (h : (w.hook v.hook).Calm) (u : State)
    (happening? : Option Happening) : told w v u happening? = none := by
  cases happening? with
  | none => rfl
  | some happening => exact h _ _

/-- The state that a visit leaves. -/
def ended (v : Visit) (u : State) (happening? : Option Happening) : State :=
  happening?.elim (u.setDepth v.depth) (closed w v u)

section Fields

variable (s u : State) (v : Visit) (happening? : Option Happening)

@[simp] theorem hook_visit : (visit w c hook name i s).hook = hook := rfl

@[simp] theorem depth_visit : (visit w c hook name i s).depth = s.tracing.depth := rfl

/-- A visit has a span if the hook replied so when the node was entered. -/
theorem isSome_span_visit : (visit w c hook name i s).span.isSome =
    match (w.hook hook).reply s.tracing.calls (entering c hook name i s.tracing.depth) with
    | .ok given => given
    | .error _ => false := by
  simp only [visit,Hook.reply]
  cases (w.hook hook).answer _ _ <;> rfl

/-- What a hook replies when a node is entered, if it raises nothing. -/
theorem reply_visit
    (h : (w.hook hook).fault? s.tracing.calls (entering c hook name i s.tracing.depth) = none) :
    (w.hook hook).reply s.tracing.calls (entering c hook name i s.tracing.depth) =
      .ok (visit w c hook name i s).span.isSome := by
  obtain ⟨span,ha⟩ := Hook.exists_answer_of_fault?_eq_none h
  rw [Hook.reply,visit,ha]
  exact congrArg Except.ok (Bool.true_and _)

/-- A node that is entered stands in the record with its span. -/
@[simp] theorem calls_entered : (entered w c hook name i s).tracing.calls =
    (visit w c hook name i s).call (.entered c i s.tracing.depth) :: s.tracing.calls := by
  simp only [entered,State.tracing_mapTracing,Tracing.tell,visit,entering,Call.answered,Visit.call]
  cases (w.hook hook).answer _ _ <;> rfl

@[simp] theorem depth_inside : (inside w c hook name i s).tracing.depth = s.tracing.depth + 1 := rfl

@[simp] theorem calls_inside : (inside w c hook name i s).tracing.calls =
    (visit w c hook name i s).call (.entered c i s.tracing.depth) :: s.tracing.calls :=
  calls_entered w c hook name i s

@[simp] theorem memory_ended : (ended w v u happening?).memory = u.memory := by
  cases happening? <;> rfl

@[simp] theorem depth_ended : (ended w v u happening?).tracing.depth = v.depth := by
  cases happening? <;> rfl

/-- The calls at the end of a node that was told how it ended. -/
theorem calls_ended {α : Type} {outcome : α → Outcome} {r : Answer α} {d : Nat} {duration : Rat} :
    (ended w v u (r.happening? outcome c i d duration)).tracing.calls =
      ((r.happening? outcome c i d duration).map v.call).toList ++ u.tracing.calls := by
  rcases r with a | fault | _
  · rfl
  · dsimp only [Answer.happening?]
    split <;> rfl
  · rfl

end Fields

section Equations

/-- After the clock was read once more. -/
def clocked (u : State) : State := u.mapTracing fun t => { t with readings := t.readings + 1 }

theorem since_apply (start : Rat) (u : State) :
    since w start u = (.value ((w.clock u.tracing.readings - start) * 1000),clocked u) := rfl

theorem tell_of_ok {call : Call} {s : State} {span : Option Nat}
    (h : (w.hook call.hook).answer s.tracing.calls call = .ok span) :
    tell w call s = (.value span,s.mapTracing (·.tell (w.hook call.hook) call)) := by
  rw [tell,h]

theorem tell_of_error {call : Call} {s : State} {fault : Fault}
    (h : (w.hook call.hook).answer s.tracing.calls call = .error fault) :
    tell w call s = (.raised fault,s.mapTracing (·.tell (w.hook call.hook) call)) := by
  rw [tell,h]

/-- What follows once a visit was closed, where its hook raises nothing. -/
theorem close_bind {α : Type} (v : Visit) (happening : Happening) (u : State) (x : Run α) :
    (close w v.hook v.name v.depth v.span happening >>= fun _ => x) u =
      (told w v u (some happening)).elim (x (u.mapTracing (·.tell (w.hook v.hook) (v.call happening))))
        fun fault => (.raised fault,u.mapTracing (·.tell (w.hook v.hook) (v.call happening))) := by
  simp only [close,Run.bind_apply,tell,told,Option.bind_some,Hook.fault?,Visit.call]
  cases (w.hook v.hook).answer u.tracing.calls _ <;> rfl

/-- The same when the time that a visit took is read first. -/
theorem since_close_bind {α : Type} (start : Rat) (v : Visit) (happening : Rat → Happening)
    (u : State) (x : Run α) :
    (since w start >>= fun duration =>
      close w v.hook v.name v.depth v.span (happening duration) >>= fun _ => x) u =
      let last := happening ((w.clock u.tracing.readings - start) * 1000)
      let u' := (clocked u).mapTracing (·.tell (w.hook v.hook) (v.call last))
      (told w v u (some last)).elim (x u') fun fault => (.raised fault,u') :=
  (Run.bind_of_value (since_apply w start u)).trans (close_bind w v _ (clocked u) x)

variable {α : Type} (outcome : α → Outcome) {node : Run α} {s : State}

theorem traced_hidden (h : Config.hides c.config s.tracing.depth = true) :
    traced outcome w c hook name i node s = node s := by
  rw [traced,Run.bind_of_value (Run.get_apply _ s),if_pos h]

variable {w hook}

/-- A hook that raises when a node is entered keeps the node from running. -/
theorem traced_refused {fault : Fault} (h : Config.hides c.config s.tracing.depth = false)
    (hf : (w.hook hook).fault? s.tracing.calls (entering c hook name i s.tracing.depth) =
      some fault) :
    traced outcome w c hook name i node s = (.raised fault,entered w c hook name i s) := by
  rw [traced,Run.bind_of_value (Run.get_apply _ s),if_neg (by simp [h])]
  have htell : tell w (entering c hook name i s.tracing.depth) s =
      (.raised fault,entered w c hook name i s) :=
    tell_of_error w (Hook.answer_of_fault? hf)
  exact Run.bind_of_raised htell

/-- A node whose hook lets it in runs inside, and its hook is told how it ended. -/
theorem traced_entered (h : Config.hides c.config s.tracing.depth = false)
    (hf : (w.hook hook).fault? s.tracing.calls (entering c hook name i s.tracing.depth) = none) :
    traced outcome w c hook name i node s =
      let r := node (inside w c hook name i s)
      let happening? := r.1.happening? outcome c i s.tracing.depth (duration w s r.2)
      (r.1.heard (told w (visit w c hook name i s) r.2 happening?),
        ended w (visit w c hook name i s) r.2 happening?) := by
  have htell : tell w (entering c hook name i s.tracing.depth) s =
      (.value (visit w c hook name i s).span,entered w c hook name i s) := by
    obtain ⟨span,ha⟩ := Hook.exists_answer_of_fault?_eq_none hf
    rw [visit,ha]
    exact tell_of_ok w ha
  have hwatch : traced outcome w c hook name i node s =
      watch outcome w c hook name i s.tracing.depth (visit w c hook name i s).span
        (w.clock s.tracing.readings) node
        ((entered w c hook name i s).mapTracing fun t => { t with readings := t.readings + 1 }) := by
    rw [traced,Run.bind_of_value (Run.get_apply _ s),if_neg (by simp [h])]
    exact Run.bind_of_value htell
  have hinside : ((entered w c hook name i s).mapTracing fun t =>
      { t with readings := t.readings + 1 }).setDepth (s.tracing.depth + 1) =
        inside w c hook name i s := rfl
  rw [hwatch]
  simp only [watch,hinside]
  rcases node (inside w c hook name i s) with ⟨a | fault | _,u⟩
  · -- the clock is read and the hook is called with as many nodes open as at first
    have hclose := since_close_bind w (w.clock s.tracing.readings) (visit w c hook name i s)
      (fun duration => .left c i (outcome a) duration s.tracing.depth) (u.setDepth s.tracing.depth)
      (pure a)
    refine hclose.trans ?_
    change Option.elim (told w _ u
      (some (.left c i (outcome a) (duration w s u) s.tracing.depth))) _ _ = _
    dsimp only [Answer.happening?]
    cases told w _ u (some (.left c i (outcome a) (duration w s u) s.tracing.depth)) <;> rfl
  · dsimp only [Answer.happening?]
    cases fault.isError with
    | false => rfl
    | true =>
      have hclose := since_close_bind w (w.clock s.tracing.readings) (visit w c hook name i s)
        (.failed fault) u (Run.raise fault : Run α)
      refine (congrArg (fun r => (r.1,r.2.setDepth s.tracing.depth)) hclose).trans ?_
      change (fun r : Answer α × State => (r.1,r.2.setDepth s.tracing.depth))
        (Option.elim (told w _ u (some (.failed fault (duration w s u)))) _ _) = _
      simp only [↓reduceIte]
      cases told w _ u (some (.failed fault (duration w s u))) <;> rfl
  · rfl

end Equations

end Hooks
end Peg
