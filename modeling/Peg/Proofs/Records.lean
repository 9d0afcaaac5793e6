import Mathlib.Data.List.Forall2
import Peg.Proofs.Kinds
import Peg.Proofs.Lockstep

/-! Records of two parses that are traced alike.
The calls of the two parses stand side by side and are the same but for what may differ between them.
A hook that does not look at what may differ answers the same in both, however much of the record it
remembers.  Main statement: a node that is entered, run and closed in both parses is told of alike
and leaves records that are alike. -/
namespace Peg

/-- Two calls for the same visit, which tell related things. -/
structure Call.Twin (P : Happening → Happening → Prop) (call call' : Call) : Prop where
  hook : call'.hook = call.hook
  span : call'.span = call.span
  name : call'.name = call.name
  depth : call'.depth = call.depth
  happening : P call.happening call'.happening

namespace Call.Twin

variable {P Q : Happening → Happening → Prop} {call call' : Call}

theorem imp (h : call.Twin P call') (hPQ : ∀ x y, P x y → Q x y) : call.Twin Q call' :=
  ⟨h.hook,h.span,h.name,h.depth,hPQ _ _ h.happening⟩

theorem alike (h : call.Twin P call') : call.Alike P call' :=
  ⟨h.hook,congrArg Option.isSome h.span,h.name,h.depth,h.happening⟩

/-- A call stands beside itself if what it tells does. -/
theorem self (hP : ∀ x, P x x) (call : Call) : call.Twin P call := ⟨rfl,rfl,rfl,rfl,hP _⟩

theorem eq (h : call.Twin (Happening.Like (· = ·) (· = ·) (· = ·)) call') : call' = call := by
  cases call
  cases call'
  exact Call.mk.injEq .. ▸ ⟨h.hook,h.span,h.name,h.depth,h.happening.eq⟩

theorem of_visit (v : Visit) {x y : Happening} (h : P x y) : (v.call x).Twin P (v.call y) :=
  ⟨rfl,rfl,rfl,rfl,h⟩

end Call.Twin

/-- A hook that does not look at what may differ between related calls: after calls that are related
one by one it counts as true alike, and to related calls it gives the same answer. -/
structure Hook.Follows (R : Call → Call → Prop) (h : Hook) : Prop where
  truth {xs ys : List Call} : List.Forall₂ R xs ys → h.truth ys = h.truth xs
  answer {xs ys : List Call} {call call' : Call} : List.Forall₂ R xs ys → R call call' →
    h.answer ys call' = h.answer xs call

theorem Hook.Follows.mono {R R' : Call → Call → Prop} {h : Hook} (hf : h.Follows R)
    (hR : ∀ call call', R' call call' → R call call') : h.Follows R' :=
  ⟨fun hxy => hf.truth (hxy.imp hR),fun hxy hc => hf.answer (hxy.imp hR) (hR _ _ hc)⟩

section Library

variable {xs ys : List Call}

theorem Hook.follows_showing {told : Call → Except Fault (List Event)}
    (h : (showing told).Heeds (fun _ _ => True) (Call.Alike Happening.Akin)) :
    (showing told).Follows (Call.Twin Happening.Akin) where
  truth _ := rfl
  answer {xs ys call call'} _ hc := by
    have hreply : (showing told).reply ys call' = (showing told).reply xs call :=
      h.reply trivial hc.alike
    rw [reply_showing,reply_showing] at hreply
    simp only [showing]
    cases hx : told call <;> cases hy : told call'
    all_goals rw [hx,hy] at hreply
    all_goals cases hreply
    all_goals rfl

theorem Spans.ofCalls_eq (longest : Option Nat) (hook : HookId)
    (h : List.Forall₂ (Call.Twin Happening.Akin) xs ys) :
    ofCalls longest hook ys = ofCalls longest hook xs := by
  induction h with
  | nil => rfl
  | @cons call call' calls _ hc _ ih =>
    have hafter : (ofCalls longest hook calls).after longest call' =
        (ofCalls longest hook calls).after longest call := by
      obtain ⟨_,_,_,_,happening⟩ := call
      obtain ⟨_,span,_,_,happening'⟩ := call'
      obtain ⟨-,rfl,-,-,hh⟩ := hc
      cases hh <;> cases span <;> rfl
    rw [ofCalls,ofCalls,hc.hook,ih,hafter]

theorem Spans.follows_hook (longest : Option Nat) (deepest : Option Int) :
    (Spans.hook longest deepest).Follows (Call.Twin Happening.Akin) where
  truth _ := rfl
  answer {xs ys call call'} h hc := by
    obtain ⟨_,span,_,_,happening⟩ := call
    obtain ⟨_,span',_,_,happening'⟩ := call'
    obtain ⟨rfl,rfl,rfl,rfl,hh⟩ := hc
    simp only [Spans.hook,Spans.ofCalls_eq longest _ h]
    cases hh <;> cases span' <;> rfl

theorem Hook.follows_recording (raises : Option Occasion) :
    (recording raises).Follows (Call.Twin Happening.Akin) where
  truth _ := rfl
  answer {xs ys call call'} h hc := by
    have hnumber : recording.number ys call' = recording.number xs call := by
      unfold recording.number
      rw [hc.hook]
      induction h with
      | nil => rfl
      | cons hb _ ih =>
        rw [List.countP_cons,List.countP_cons,ih,hb.hook,hb.happening.occasion_eq]
    simp only [recording,hnumber,hc.happening.occasion_eq]

/-- A hook of the library does not look at places, outcomes and durations. -/
theorem HookKind.follows (longest : Option Nat) (kind : HookKind) :
    (kind.hook longest).Follows (Call.Twin Happening.Akin) := by
  cases kind with
  | lines indent timing => exact Hook.follows_showing (heeds longest (.lines indent timing))
  | messages level threshold =>
    exact Hook.follows_showing (heeds longest (.messages level threshold))
  | spans deepest => exact Spans.follows_hook longest deepest
  | recorder raises => exact Hook.follows_recording raises

end Library

/-- The same calls were made but for what is related, and as many traced nodes are open. -/
structure Tracing.Twins (P : Happening → Happening → Prop) (t t' : Tracing) : Prop where
  calls : List.Forall₂ (Call.Twin P) t.calls t'.calls
  depth : t'.depth = t.depth

/-- The same, and it is known how often the clock was read. -/
structure Tracing.InStep (P : Happening → Happening → Prop) (R : Nat → Nat → Prop)
    (t t' : Tracing) : Prop extends t.Twins P t' where
  readings : R t.readings t'.readings

namespace Hooks

variable {P : Happening → Happening → Prop} {R : Nat → Nat → Prop} {w w' : World} {c c' : Context}
  {hook : HookId} {name : Text} {i i' : Int} {s s' u u' : State}

/-- The same hook is chosen for a log. -/
theorem chosen_twin (hw : w'.hook = w.hook) (hh : ∀ hook, (w.hook hook).Follows (Call.Twin P))
    (hs : s.tracing.Twins P s'.tracing) (own given : Option HookId) :
    chosen w' own given s'.tracing.calls = chosen w own given s.tracing.calls := by
  refine chosen_eq (fun hook => ?_) own given
  rw [hw]
  exact (hh hook).truth hs.calls

section Entering

variable (name) (hw : w'.hook = w.hook) (hh : (w.hook hook).Follows (Call.Twin P))
  (hs : s.tracing.Twins P s'.tracing)
  (hP : P (.entered c i s.tracing.depth) (.entered c' i' s.tracing.depth))
include hw hh hs hP

/-- A hook lets both nodes in, and gives both the same span, or raises the same. -/
theorem answer_twin :
    (w'.hook hook).answer s'.tracing.calls (entering c' hook name i' s'.tracing.depth) =
      (w.hook hook).answer s.tracing.calls (entering c hook name i s.tracing.depth) := by
  rw [hw,hs.depth]
  exact hh.answer hs.calls ⟨rfl,rfl,rfl,rfl,hP⟩

theorem fault?_twin :
    (w'.hook hook).fault? s'.tracing.calls (entering c' hook name i' s'.tracing.depth) =
      (w.hook hook).fault? s.tracing.calls (entering c hook name i s.tracing.depth) := by
  rw [Hook.fault?,Hook.fault?,answer_twin name hw hh hs hP]

theorem visit_twin : visit w' c' hook name i' s' = visit w c hook name i s := by
  rw [visit,visit,answer_twin name hw hh hs hP,hs.depth]

theorem entered_twin :
    (entered w c hook name i s).tracing.Twins P (entered w' c' hook name i' s').tracing where
  calls := by
    rw [calls_entered,calls_entered,visit_twin name hw hh hs hP,hs.depth]
    exact .cons (.of_visit _ hP) hs.calls
  depth := hs.depth

theorem inside_twin :
    (inside w c hook name i s).tracing.Twins P (inside w' c' hook name i' s').tracing where
  calls := (entered_twin name hw hh hs hP).calls
  depth := congrArg (· + 1) hs.depth

end Entering

/-- A hook hears of both nodes alike. -/
theorem told_twin {v : Visit} (hw : w'.hook = w.hook)
    (hh : (w.hook v.hook).Follows (Call.Twin P)) (hu : u.tracing.Twins P u'.tracing)
    {x y : Option Happening} (hxy : Option.Rel P x y) : told w' v u' y = told w v u x := by
  cases hxy with
  | none => rfl
  | some h =>
    simp only [told,Option.bind_some,Hook.fault?,hw]
    rw [hh.answer hu.calls (Call.Twin.of_visit v h)]

theorem ended_twin {α β : Type} {f : α → Outcome} {g : β → Outcome} {a : Answer α} {b : Answer β}
    {depth : Nat} {d d' : Rat} (v : Visit) (hu : u.tracing.Twins P u'.tracing)
    (hxy : Option.Rel P (a.happening? f c i depth d) (b.happening? g c' i' depth d')) :
    (ended w v u (a.happening? f c i depth d)).tracing.Twins P
      (ended w' v u' (b.happening? g c' i' depth d')).tracing where
  calls := by
    rw [calls_ended,calls_ended]
    generalize a.happening? f c i depth d = x at hxy ⊢
    generalize b.happening? g c' i' depth d' = y at hxy ⊢
    cases hxy with
    | none => exact hu.calls
    | some h => exact .cons (.of_visit v h) hu.calls
  depth := by rw [depth_ended,depth_ended]

/-- For both of two nodes the clock is read again, or for none. -/
theorem readings_ended (hR : ∀ k l, R k l → R (k + 1) (l + 1)) {v : Visit}
    {happening? happening?' : Option Happening} (h : Option.Rel P happening? happening?')
    (hu : R u.tracing.readings u'.tracing.readings) :
    R (ended w v u happening?).tracing.readings (ended w' v u' happening?').tracing.readings := by
  cases h with
  | none => exact hu
  | some => exact hR _ _ hu

/-- What tracing two nodes comes to, after records that are related in a way that their hooks keep:
both are run as they are; or their hooks raise the same before they are run; or both are run one level
deeper, the first of them from a given state, and if they end alike their hooks raise the same
then. -/
inductive TracesBoth {α β : Type} (T : Tracing → Tracing → Prop) (Q : α → β → Prop) (x : Run α)
    (y : Run β) (s u s' : State) (r : Answer α × State) (r' : Answer β × State) : Prop
  | hidden : r = x s → r' = y s' → TracesBoth T Q x y s u s' r r'
  | stopped {fault : Fault} : r.1 = .raised fault → r'.1 = .raised fault →
    r.2.memory = s.memory → r'.2.memory = s'.memory → T r.2.tracing r'.2.tracing →
    TracesBoth T Q x y s u s' r r'
  | heard {v : State} {told told' : Option Fault} : u.memory = s.memory → v.memory = s'.memory →
    T u.tracing v.tracing → r.1 = (x u).1.heard told → r'.1 = (y v).1.heard told' →
    ((x u).1.Like Q (y v).1 → T (x u).2.tracing (y v).2.tracing →
      told' = told ∧ T r.2.tracing r'.2.tracing) →
    (x u).2.memory = r.2.memory → (y v).2.memory = r'.2.memory → TracesBoth T Q x y s u s' r r'

/-- A hook that does not look at what may differ between two nodes does the same about them, however
much of the record it remembers. -/
theorem traces_inStep {α β : Type} {f : α → Outcome} {g : β → Outcome} {Q : α → β → Prop}
    (hw : w'.hook = w.hook) (hh : (w.hook hook).Follows (Call.Twin P))
    (hR : ∀ k l, R k l → R (k + 1) (l + 1)) (hs : s.tracing.InStep P R s'.tracing)
    (hP : P (.entered c i s.tracing.depth) (.entered c' i' s.tracing.depth))
    (hc : Config.hides c'.config s.tracing.depth = Config.hides c.config s.tracing.depth)
    (hlast : ∀ (a : Answer α) (b : Answer β) (u u' : State), a.Like Q b →
      R u.tracing.readings u'.tracing.readings →
        Option.Rel P (a.happening? f c i s.tracing.depth (duration w s u))
          (b.happening? g c' i' s.tracing.depth (duration w' s' u')))
    (name : Text) (x : Run α) (y : Run β) :
    TracesBoth (Tracing.InStep P R) Q x y s (inside w c hook name i s) s'
      (traced f w c hook name i x s) (traced g w' c' hook name i' y s') := by
  have htwins := hs.toTwins
  have hfault := fault?_twin name hw hh htwins hP
  cases hd : Config.hides c.config s.tracing.depth with
  | true =>
    have hd' : Config.hides c'.config s'.tracing.depth = true := by rw [hs.depth,hc,hd]
    exact .hidden (traced_hidden w c hook name i f hd) (traced_hidden w' c' hook name i' g hd')
  | false =>
    have hd' : Config.hides c'.config s'.tracing.depth = false := by rw [hs.depth,hc,hd]
    cases hf : (w.hook hook).fault? s.tracing.calls (entering c hook name i s.tracing.depth) with
    | some fault =>
      rw [traced_refused c name i f hd hf,traced_refused c' name i' g hd' (hfault.trans hf)]
      exact .stopped rfl rfl rfl rfl ⟨entered_twin name hw hh htwins hP,hs.readings⟩
    | none =>
      rw [traced_entered c name i f hd hf,traced_entered c' name i' g hd' (hfault.trans hf),
        visit_twin name hw hh htwins hP,hs.depth]
      refine .heard (v := inside w' c' hook name i' s') rfl rfl
        ⟨inside_twin name hw hh htwins hP,hR _ _ hs.readings⟩ rfl rfl (fun hxy hu => ?_)
        (memory_ended ..).symm (memory_ended ..).symm
      have hhappening := hlast _ _ _ _ hxy hu.readings
      exact ⟨told_twin (v := visit w c hook name i s) hw hh hu.toTwins hhappening,
        ended_twin _ hu.toTwins hhappening,readings_ended hR hhappening hu.readings⟩

end Hooks
end Peg
