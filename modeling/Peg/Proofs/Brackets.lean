import Peg.Proofs.Loops
import Peg.Proofs.Tracing

/-! The calls of all hooks as brackets.
A node that its hook lets in makes one call before and one after whatever is called inside it, unless
something that is no error passes through it.  Main statement: the calls of a parse that ends, each
with what its hook answered, are such brackets, and what they say of depths and faults is true. -/
namespace Peg

def Answer.fault? {α : Type} : Answer α → Option Fault
  | .raised fault => some fault
  | _ => none

theorem Answer.fault?_eq_some {α : Type} {r : Answer α} {fault : Fault} :
    r.fault? = some fault ↔ r = .raised fault := by
  cases r <;> simp [fault?]

/-- Whether a call tells that a node is entered. -/
def Call.enters (call : Call) : Bool :=
  match call.happening with
  | .entered .. => true
  | _ => false

/-- A call as it stands in the record, with what its hook answered. -/
structure Told where
  call : Call
  answer : Except Fault (Option Nat)

/-- Calls that were made one after another, after other ones that stand in the record before them,
with the answers of their hooks. -/
def World.transcript (w : World) : List Call → List Call → List Told
  | _, [] => []
  | before, call :: calls =>
    ⟨call,(w.hook call.hook).answer before call.asked⟩ :: w.transcript (call :: before) calls

@[simp] theorem World.transcript_append (w : World) (before xs ys : List Call) :
    w.transcript before (xs ++ ys) =
      w.transcript before xs ++ w.transcript (xs.reverse ++ before) ys := by
  induction xs generalizing before with
  | nil => rfl
  | cons x xs ih => simp [transcript,ih]

namespace Told

/-- The calls made one after another while so many nodes are open, by a computation that raises this
fault or none.  An error that passes through a node is told to its hook and goes on, unless the hook
raises in its place; what is no error goes on untold.  After a fault nothing else is called at that
depth. -/
inductive Bracketed : Nat → List Told → Option Fault → Prop
  | quiet {depth : Nat} (fault? : Option Fault) : Bracketed depth [] fault?
  | refused {v : Visit} {c : Context} {i : Int} {fault : Fault} :
    Bracketed v.depth [⟨v.call (.entered c i v.depth),.error fault⟩] (some fault)
  | returned {v : Visit} {c : Context} {i : Int} {o : Outcome} {duration : Rat} {answer : Option Nat}
    {inner rest : List Told} {fault? : Option Fault} :
    Bracketed (v.depth + 1) inner none → Bracketed v.depth rest fault? →
      Bracketed v.depth (⟨v.call (.entered c i v.depth),.ok v.span⟩ ::
        (inner ++ ⟨v.call (.left c i o duration v.depth),.ok answer⟩ :: rest)) fault?
  | spoilt {v : Visit} {c : Context} {i : Int} {o : Outcome} {duration : Rat} {inner : List Told}
    {fault : Fault} :
    Bracketed (v.depth + 1) inner none →
      Bracketed v.depth (⟨v.call (.entered c i v.depth),.ok v.span⟩ ::
        (inner ++ [⟨v.call (.left c i o duration v.depth),.error fault⟩])) (some fault)
  | failed {v : Visit} {c : Context} {i : Int} {duration : Rat} {answer : Option Nat}
    {inner : List Told} {fault : Fault} :
    fault.isError = true → Bracketed (v.depth + 1) inner (some fault) →
      Bracketed v.depth (⟨v.call (.entered c i v.depth),.ok v.span⟩ ::
        (inner ++ [⟨v.call (.failed fault duration),.ok answer⟩])) (some fault)
  | replaced {v : Visit} {c : Context} {i : Int} {duration : Rat} {inner : List Told}
    {fault raised : Fault} :
    fault.isError = true → Bracketed (v.depth + 1) inner (some fault) →
      Bracketed v.depth (⟨v.call (.entered c i v.depth),.ok v.span⟩ ::
        (inner ++ [⟨v.call (.failed fault duration),.error raised⟩])) (some raised)
  | abandoned {v : Visit} {c : Context} {i : Int} {inner : List Told} {fault : Fault} :
    fault.isError = false → Bracketed (v.depth + 1) inner (some fault) →
      Bracketed v.depth (⟨v.call (.entered c i v.depth),.ok v.span⟩ :: inner) (some fault)

/-- While so many nodes are open at first, every call is given the number of nodes that are open
around its own. -/
def Levels : Nat → List Told → Prop
  | _, [] => True
  | n, x :: xs =>
    match x.call.happening with
    | .entered _ _ now => x.call.depth = n ∧ now = n ∧ Levels (if x.answer.isOk then n + 1 else n) xs
    | .left _ _ _ _ now => x.call.depth + 1 = n ∧ now = x.call.depth ∧ Levels x.call.depth xs
    | .failed .. => x.call.depth + 1 = n ∧ Levels x.call.depth xs

end Told

/-- Whether this closes a node that was entered at an index. -/
def Happening.Closes (i : Int) : Happening → Prop
  | .entered .. => False
  | .left _ j .. => j = i
  | .failed .. => True

/-- A fault that passes by the hooks of all nodes that it passes through. -/
def Answer.Escapes {α : Type} (r : Answer α) : Prop := ∃ fault, r = .raised fault ∧ fault.isError = false

namespace Told

/-- Calls in which every node that is entered is closed once, after all that is entered inside it;
only what a hook refused is not closed, and what is open in the end where nodes may be abandoned. -/
inductive Paired (abandoned : Prop) : List Told → Prop
  | nil : Paired abandoned []
  | refused {v : Visit} {c : Context} {i : Int} {now : Nat} {fault : Fault} {rest : List Told} :
    Paired abandoned rest → Paired abandoned (⟨v.call (.entered c i now),.error fault⟩ :: rest)
  | pair {v : Visit} {c : Context} {i : Int} {now : Nat} {closing : Happening}
    {answer : Except Fault (Option Nat)} {inner rest : List Told} :
    closing.Closes i → Paired abandoned inner → Paired abandoned rest →
      Paired abandoned (⟨v.call (.entered c i now),.ok v.span⟩ ::
        (inner ++ ⟨v.call closing,answer⟩ :: rest))
  | unclosed {v : Visit} {c : Context} {i : Int} {now : Nat} {rest : List Told} :
    abandoned → Paired abandoned rest →
      Paired abandoned (⟨v.call (.entered c i now),.ok v.span⟩ :: rest)

variable {n : Nat} {xs ys : List Told} {e : Option Fault} {abandoned : Prop}

theorem Bracketed.append (h : Bracketed n xs none) (h' : Bracketed n ys e) :
    Bracketed n (xs ++ ys) e := by
  generalize hnone : (none : Option Fault) = quiet at h
  induction h with
  | quiet => exact h'
  | refused | spoilt | failed | replaced | abandoned => cases hnone
  | returned hinner _ _ ih =>
    rw [List.cons_append,List.append_assoc,List.cons_append]
    exact .returned hinner (ih h' hnone)

/-- Nothing is called after what is no error. -/
theorem Bracketed.levels (h : Bracketed n xs e) (h' : Levels n ys)
    (hys : ∀ fault, e = some fault → fault.isError = false → ys = []) : Levels n (xs ++ ys) := by
  induction h generalizing ys with
  | quiet => exact h'
  | refused => exact ⟨rfl,rfl,h'⟩
  | returned _ _ ihinner ihrest =>
    rw [List.cons_append,List.append_assoc,List.cons_append]
    exact ⟨rfl,rfl,ihinner ⟨rfl,rfl,ihrest h' hys⟩ nofun⟩
  | spoilt _ ihinner =>
    rw [List.cons_append,List.append_assoc]
    exact ⟨rfl,rfl,ihinner ⟨rfl,rfl,h'⟩ nofun⟩
  | failed herror _ ihinner | replaced herror _ ihinner =>
    rw [List.cons_append,List.append_assoc]
    refine ⟨rfl,rfl,ihinner ⟨rfl,h'⟩ fun fault hfault hpass => ?_⟩
    cases hfault
    rw [herror] at hpass
    cases hpass
  | abandoned hpass _ ihinner =>
    rw [hys _ rfl hpass]
    exact ⟨rfl,rfl,ihinner trivial fun _ _ _ => rfl⟩

theorem Paired.append (h : Paired abandoned xs) (h' : Paired abandoned ys) :
    Paired abandoned (xs ++ ys) := by
  induction h with
  | nil => exact h'
  | refused _ ih => exact .refused ih
  | pair hc hinner _ _ ih =>
    rw [List.cons_append,List.append_assoc,List.cons_append]
    exact .pair hc hinner ih
  | unclosed ha _ ih => exact .unclosed ha ih

/-- What closes a node that was let in, if anything is told of it, and what goes on from it. -/
theorem Bracketed.node {v : Visit} {r : Answer Outcome} (hne : r ≠ .exhausted) {inner : List Told}
    (h : Bracketed (v.depth + 1) inner r.fault?) (c : Context) (i : Int) (duration : Rat)
    (hook : Hook) (before : List Call) :
    let happening? := r.happening? id c i v.depth duration
    Bracketed v.depth (⟨v.call (.entered c i v.depth),.ok v.span⟩ ::
        (inner ++ (happening?.map fun x => ⟨v.call x,hook.answer before (v.call x)⟩).toList))
      (r.heard (happening?.bind fun x => hook.fault? before (v.call x))).fault? := by
  intro happening?
  rcases r with o | fault | _
  · simp only [happening?,Answer.happening?,Option.map_some,Option.toList_some,Option.bind_some,
      Hook.fault?]
    cases hook.answer before (v.call (.left c i (id o) duration v.depth)) with
    | error fault => exact .spoilt h
    | ok span => exact .returned h (.quiet none)
  · simp only [happening?,Answer.happening?]
    cases herror : fault.isError with
    | false =>
      rw [if_neg Bool.false_ne_true,Option.map_none,Option.toList_none,List.append_nil,
        Option.bind_none,Answer.heard_none]
      exact .abandoned herror h
    | true =>
      rw [if_pos rfl,Option.map_some,Option.toList_some,Option.bind_some,Hook.fault?]
      cases hook.answer before (v.call (.failed fault duration)) with
      | error raised => exact .replaced herror h
      | ok span => exact .failed herror h
  · exact absurd rfl hne

/-- Those of the calls that one hook got. -/
def ofHook (hook : HookId) (told : List Told) : List Told := told.filter (·.call.hook = hook)

theorem ofHook_append (hook : HookId) (xs ys : List Told) :
    ofHook hook (xs ++ ys) = ofHook hook xs ++ ofHook hook ys :=
  List.filter_append xs ys

section Cons

variable {hook : HookId} {v : Visit} (happening : Happening) (answer : Except Fault (Option Nat))
  (told : List Told)

theorem ofHook_cons_call (h : v.hook = hook) :
    ofHook hook (⟨v.call happening,answer⟩ :: told) =
      ⟨v.call happening,answer⟩ :: ofHook hook told := by
  simp [ofHook,h]

theorem ofHook_cons_other (h : v.hook ≠ hook) :
    ofHook hook (⟨v.call happening,answer⟩ :: told) = ofHook hook told := by
  simp [ofHook,h]

end Cons

/-- The calls of one hook are the same pairs without those of other hooks. -/
theorem Paired.ofHook (h : Paired abandoned xs) (hook : HookId) :
    Paired abandoned (ofHook hook xs) := by
  induction h with
  | nil => exact .nil
  | @refused v _ _ _ _ _ _ ih =>
    by_cases hv : v.hook = hook
    · rw [ofHook_cons_call _ _ _ hv]
      exact .refused ih
    · rw [ofHook_cons_other _ _ _ hv]
      exact ih
  | @pair v _ _ _ _ _ _ _ hc _ _ ihinner ihrest =>
    by_cases hv : v.hook = hook
    · rw [ofHook_cons_call _ _ _ hv,ofHook_append,ofHook_cons_call _ _ _ hv]
      exact .pair hc ihinner ihrest
    · rw [ofHook_cons_other _ _ _ hv,ofHook_append,ofHook_cons_other _ _ _ hv]
      exact ihinner.append ihrest
  | @unclosed v _ _ _ _ ha _ ih =>
    by_cases hv : v.hook = hook
    · rw [ofHook_cons_call _ _ _ hv]
      exact .unclosed ha ih
    · rw [ofHook_cons_other _ _ _ hv]
      exact ih

/-- Nodes are abandoned only by a fault that goes on to the end. -/
theorem Bracketed.paired (h : Bracketed n xs e)
    (ha : ∀ fault, e = some fault → fault.isError = false → abandoned) : Paired abandoned xs := by
  induction h with
  | quiet => exact .nil
  | refused => exact .refused .nil
  | returned _ _ ihinner ihrest => exact .pair rfl (ihinner nofun) (ihrest ha)
  | spoilt _ ihinner => exact .pair rfl (ihinner nofun) .nil
  | failed herror _ ihinner | replaced herror _ ihinner =>
    refine .pair trivial (ihinner fun fault hfault hpass => ?_) .nil
    cases hfault
    rw [herror] at hpass
    cases hpass
  | abandoned hpass _ ihinner => exact .unclosed (ha _ rfl hpass) (ihinner ha)

end Told

namespace Run

open Told

variable {w : World} {α β : Type}

/-- Whenever a computation ends, the calls that it made are brackets, and as many nodes are open as
before. -/
def Brackets (w : World) (x : Run α) : Prop :=
  ∀ s, (x s).1 ≠ .exhausted → ∃ calls, (x s).2.tracing.calls = calls.reverse ++ s.tracing.calls ∧
    Bracketed s.tracing.depth (w.transcript s.tracing.calls calls) (x s).1.fault? ∧
    (x s).2.tracing.depth = s.tracing.depth

theorem Brackets.of_untold {x : Run α} (h : Rules.Untold x) : Brackets w x := by
  intro s _
  rw [h s]
  exact ⟨[],rfl,.quiet _,rfl⟩

theorem Brackets.bind {x : Run α} {f : α → Run β} (hx : Brackets w x) (hf : ∀ a, Brackets w (f a)) :
    Brackets w (x >>= f) := by
  intro s hne
  rw [Run.bind_apply] at hne ⊢
  have hxs := hx s
  rcases hx' : x s with ⟨a | fault | _,u⟩
  all_goals rw [hx'] at hne hxs
  · obtain ⟨xs,hcalls,hb,hdepth⟩ := hxs (by simp)
    obtain ⟨ys,hcalls',hb',hdepth'⟩ := hf a u hne
    rw [hdepth,hcalls] at hb'
    refine ⟨xs ++ ys,?_,?_,hdepth'.trans hdepth⟩
    · rw [List.reverse_append,List.append_assoc,← hcalls]
      exact hcalls'
    · rw [World.transcript_append]
      exact hb.append hb'
  · exact hxs (by simp)
  · exact absurd rfl hne

theorem brackets_closed (w : World) : Parsing.Closed fun (α : Type) (x : Run α) => Brackets w x where
  done _ := .of_untold fun _ => rfl
  bind := .bind
  raise _ := .of_untold fun _ => rfl
  exhaust := fun _ hne => absurd rfl hne

section Node

variable {c : Context} {hook : HookId} {name : Text} {i : Int} {s : State}

/-- The transcript of a node that was let in and made calls inside. -/
theorem transcript_node (hf : (w.hook hook).fault? s.tracing.calls
      (Hooks.entering c hook name i s.tracing.depth) = none) (inner closing : List Call) :
    let v := Hooks.visit w c hook name i s
    let before := (Hooks.inside w c hook name i s).tracing.calls
    w.transcript s.tracing.calls (v.call (.entered c i v.depth) :: (inner ++ closing)) =
      ⟨v.call (.entered c i v.depth),.ok v.span⟩ ::
        (w.transcript before inner ++ w.transcript (inner.reverse ++ before) closing) := by
  intro v before
  have hanswer : (w.hook hook).answer s.tracing.calls (Hooks.entering c hook name i s.tracing.depth) =
      .ok v.span := by
    rw [Hook.fault?] at hf
    simp only [v,Hooks.visit]
    split at hf
    · rename_i span ha
      rw [ha]
    · cases hf
  have hbefore : before = v.call (.entered c i v.depth) :: s.tracing.calls :=
    Hooks.calls_inside w c hook name i s
  rw [World.transcript,World.transcript_append,hbefore]
  exact congrArg (fun answer => Told.mk _ answer :: _) hanswer

theorem transcript_refused {fault : Fault} (hf : (w.hook hook).fault? s.tracing.calls
      (Hooks.entering c hook name i s.tracing.depth) = some fault) :
    let v := Hooks.visit w c hook name i s
    w.transcript s.tracing.calls [v.call (.entered c i v.depth)] =
      [⟨v.call (.entered c i v.depth),.error fault⟩] := by
  intro v
  have hanswer : (w.hook hook).answer s.tracing.calls (Hooks.entering c hook name i s.tracing.depth) =
      .error fault := by
    rw [Hook.fault?] at hf
    split at hf
    · cases hf
    · rename_i ha
      rw [ha,Option.some.inj hf]
  exact congrArg (fun answer => [Told.mk _ answer]) hanswer

/-- The transcript of what is told at the end of a node. -/
theorem transcript_closing (w : World) (before : List Call) (v : Visit) (r : Answer Outcome)
    (c : Context) (i : Int) (depth : Nat) (duration : Rat) :
    w.transcript before ((r.happening? id c i depth duration).map v.call).toList =
      ((r.happening? id c i depth duration).map fun x =>
        ⟨v.call x,(w.hook v.hook).answer before (v.call x)⟩).toList := by
  rcases r with o | fault | _
  · rfl
  · dsimp only [Answer.happening?]
    split <;> rfl
  · rfl

/-- The calls for a node in the order in which they were made. -/
theorem calls_node {u : State} {inner : List Call} {r : Answer Outcome} {duration : Rat}
    (h : u.tracing.calls = inner.reverse ++ (Hooks.inside w c hook name i s).tracing.calls) :
    let v := Hooks.visit w c hook name i s
    (Hooks.ended w v u (r.happening? id c i s.tracing.depth duration)).tracing.calls =
      (v.call (.entered c i v.depth) ::
        (inner ++ ((r.happening? id c i s.tracing.depth duration).map v.call).toList)).reverse ++
        s.tracing.calls := by
  intro v
  rw [Hooks.calls_ended,h,Hooks.calls_inside]
  cases r.happening? id c i s.tracing.depth duration <;> simp [v]

theorem Brackets.traced {x : Run Outcome} (h : Brackets w x) (c : Context) (hook : HookId)
    (name : Text) (i : Int) : Brackets w (Hooks.traced id w c hook name i x) := by
  intro s hne
  cases hd : Config.hides c.config s.tracing.depth with
  | true =>
    rw [Hooks.traced_hidden w c hook name i id hd] at hne ⊢
    exact h s hne
  | false =>
    cases hf : (w.hook hook).fault? s.tracing.calls
      (Hooks.entering c hook name i s.tracing.depth) with
    | some fault =>
      rw [Hooks.traced_refused c name i id hd hf]
      refine ⟨[_],Hooks.calls_entered w c hook name i s,?_,rfl⟩
      exact transcript_refused hf ▸ .refused (v := Hooks.visit w c hook name i s)
    | none =>
      rw [Hooks.traced_entered c name i id hd hf] at hne ⊢
      have hs := h (Hooks.inside w c hook name i s)
      rcases hx : x (Hooks.inside w c hook name i s) with ⟨r,u⟩
      rw [hx] at hne hs
      have hr : r ≠ .exhausted := by
        rintro rfl
        exact hne rfl
      obtain ⟨inner,hcalls,hinner,-⟩ := hs hr
      refine ⟨_,calls_node hcalls,?_,Hooks.depth_ended ..⟩
      rw [transcript_node hf,← hcalls,transcript_closing]
      exact Told.Bracketed.node (v := Hooks.visit w c hook name i s) hr hinner c i _ _ _

end Node

end Run

namespace Parsing

open Run

variable {w : World} {c : Context}

theorem run_brackets (n : Nat) (p : Parser) (i : Int) : Brackets w (run w c n p i) := by
  apply (brackets_closed w).run
  · exact fun r => .of_untold (Rules.untold_body w r)
  · exact fun n id parts => .of_untold (Rules.untold_shape w n id parts)
  · exact fun hook name i x hx => hx.traced c hook name i
  · exact fun own name i x hx s => hx.traced c (Hooks.chosen w own c.hook s.tracing.calls) name i s

/-- Two logs that report to different hooks, around a function that raises. -/
def loggedTwice : Parser := .log (.named "outer") (.log (.named "inner") (.map (.named "map")
  (.word (.named "a") "a".toList) (fun _ => .error .boom) "boom".toList) "in".toList
    (some (.numbered 1))) "out".toList none

end Parsing
end Peg
