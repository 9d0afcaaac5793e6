import Peg.Proofs.Visits

/-! The hooks that come with the library.
They remember nothing that bears on what they raise, and look at an error only to tell it.  Main
statements: what such a hook replies is settled by the occasion, by the error and by whether there
is a span; and where every number can be told, only a recorder that was made to raise ever raises. -/
namespace Peg

/-- The same occasion, and the same fault where there is one. -/
abbrev Happening.Akin : Happening → Happening → Prop :=
  Like (fun _ _ => True) (fun _ _ => True) fun _ _ => True

theorem Happening.Akin.occasion_eq {x y : Happening} (h : x.Akin y) : y.occasion = x.occasion := by
  cases h <;> rfl

namespace Hook

theorem reply_showing (told : Call → Except Fault (List Event)) (before : List Call) (call : Call) :
    (showing told).reply before call = (told call).map fun _ => false := by
  simp only [reply,showing]
  cases told call with
  | error => rfl
  | ok => exact congrArg Except.ok (Bool.and_false _)

/-- A hook that makes something of each call by itself heeds what that depends on. -/
theorem heeds_showing {told : Call → Except Fault (List Event)} {R : Call → Call → Prop}
    (h : ∀ call call', R call call' →
      (told call').map (fun _ => false) = (told call).map fun _ => false) :
    (showing told).Heeds (fun _ _ => True) R where
  truth _ := rfl
  reply _ hc := by rw [reply_showing,reply_showing,h _ _ hc]

theorem heeds_recording (raises : Option Occasion) :
    (recording raises).Heeds (fun _ _ => True) (Call.Alike Happening.Akin) where
  truth _ := rfl
  reply {xs ys call call'} _ hc := by
    simp only [reply,recording,hc.happening.occasion_eq]
    by_cases hr : raises = some call.happening.occasion
    · rw [if_pos hr,if_pos hr]
    · rw [if_neg hr,if_neg hr]
      rfl

theorem calm_recording : (recording none).Calm := by
  intro before call
  simp [fault?,recording]

end Hook

/-- A hook of spans gives one where the node is not too deep, and raises where it cannot tell an
error to a span. -/
theorem Spans.heeds_hook (longest : Option Nat) (deepest : Option Int) :
    (hook longest deepest).Heeds (fun _ _ => True) (Call.Alike Happening.Akin) where
  truth _ := rfl
  reply {xs ys call call'} _ hc := by
    obtain ⟨_,span,_,_,happening⟩ := call
    obtain ⟨_,span',_,depth,happening'⟩ := call'
    obtain ⟨rfl,hspan,rfl,rfl,hh⟩ := hc
    simp only [Hook.reply,hook]
    cases hh with
    | entered =>
      simp only [given]
      by_cases hd : deepest.any (· < (depth : Int)) = true
      · rw [if_pos hd,if_pos hd]
        rfl
      · rw [if_neg hd,if_neg hd]
        rfl
    | left => rfl
    | failed =>
      cases span <;> cases span'
      · rfl
      · cases hspan
      · cases hspan
      · rfl

namespace HookKind

/-- What a hook of the library replies is settled by the occasion, by the fault and by whether there
is a span. -/
theorem heeds (longest : Option Nat) (kind : HookKind) :
    (kind.hook longest).Heeds (fun _ _ => True) (Call.Alike Happening.Akin) := by
  cases kind with
  | lines indent timing =>
    refine Hook.heeds_showing fun call call' hc => ?_
    obtain ⟨_,_,_,_,happening⟩ := call
    obtain ⟨_,_,_,_,happening'⟩ := call'
    cases hc.happening with
    | entered | left => rfl
    | @failed fault =>
      simp only [Call.line]
      cases fault.told longest <;> rfl
  | messages level threshold =>
    refine Hook.heeds_showing fun call call' hc => ?_
    obtain ⟨_,_,_,_,happening⟩ := call
    obtain ⟨_,_,_,_,happening'⟩ := call'
    cases hc.happening with
    | entered | left => rfl
    | @failed fault =>
      simp only [Call.message]
      cases fault.told longest <;> rfl
  | spans deepest => exact Spans.heeds_hook longest deepest
  | recorder raises => exact Hook.heeds_recording raises

/-- A hook of the library overlooks outcomes altogether. -/
theorem overlooks (longest : Option Nat) (kind : HookKind) (O : Outcome → Outcome → Prop) :
    (kind.hook longest).Overlooks O :=
  (heeds longest kind).mono (fun _ _ h => h) fun _ _ hc => hc.imp fun _ _ hh =>
    hh.imp (fun _ _ _ => trivial) (fun _ _ _ => trivial) fun _ _ _ => trivial

end HookKind

theorem Fault.told_none (fault : Fault) : ∃ text, fault.told none = .ok text := by
  cases fault <;> exact ⟨_,rfl⟩

/-- As long as it is told of no error a hook of the library raises only if it is a recorder that was
made to. -/
theorem HookKind.calmUnlessError (kind : HookKind) (longest : Option Nat)
    (h : ∀ raises, kind = .recorder raises → raises = none) :
    (kind.hook longest).CalmUnlessError := by
  intro before call hne
  cases kind with
  | recorder raises =>
    obtain rfl := h _ rfl
    exact Hook.calm_recording before call
  | _ =>
    obtain ⟨_,span,_,_,_ | _ | fault⟩ := call
    · rfl
    · cases span <;> rfl
    · exact absurd rfl hne

/-- Where every number can be told, it does not raise at errors either. -/
theorem HookKind.calm (kind : HookKind) (h : ∀ raises, kind = .recorder raises → raises = none) :
    (kind.hook none).Calm := by
  rintro before ⟨hook,span,name,depth,happening⟩
  cases happening with
  | failed fault duration =>
    obtain ⟨text,ht⟩ := fault.told_none
    cases kind with
    | lines indent timing =>
      simp only [Hook.fault?,HookKind.hook,Hook.showing,Call.line,ht]
      rfl
    | messages level threshold =>
      simp only [Hook.fault?,HookKind.hook,Hook.showing,Call.message,ht]
      rfl
    | spans deepest =>
      cases span with
      | none => rfl
      | some =>
        simp only [Hook.fault?,HookKind.hook,Spans.hook,ht]
        rfl
    | recorder raises =>
      obtain rfl := h _ rfl
      exact Hook.calm_recording before _
  | _ => exact calmUnlessError _ none h before _ (by simp [Happening.occasion])

theorem HookKind.calm_lines (indent : Text) (timing : Bool) :
    ((lines indent timing).hook none).Calm :=
  calm _ nofun

end Peg
