import Peg.Proofs.Lockstep
import Peg.Proofs.Records
import Peg.Proofs.Tracing

/-! Nodes that end alike, and what hooks make of them.
Hooks may have no memory and heed no more than what is the same about two nodes; or never raise; or
remember what they were told, if that was the same as well.  Main statements: such hooks do the same
about the two nodes, also where a log may report to either of them; and then nodes that end alike do
so when they are traced. -/
namespace Peg

/-- Answers that are alike stay so when they are heard of. -/
theorem Answer.Like.heard {α β : Type} {Q : α → β → Prop} {a : Answer α} {b : Answer β}
    (h : a.Like Q b) (told : Option Fault) : (a.heard told).Like Q (b.heard told) := by
  cases told with
  | none => rwa [heard_none,heard_none]
  | some fault =>
    cases h with
    | value | raised => exact .raised fault
    | exhausted => exact .exhausted

/-- What hooks are told at the end of answers that are alike is alike. -/
theorem Answer.Like.happening? {α β : Type} {Q : α → β → Prop} {a : Answer α} {b : Answer β}
    (h : a.Like Q b) {f : α → Outcome} {g : β → Outcome} {O : Outcome → Outcome → Prop}
    (hfg : ∀ x y, Q x y → O (f x) (g y)) {I : Context × Int → Context × Int → Prop}
    {D : Rat → Rat → Prop} {c c' : Context} {i i' : Int} (hI : I (c,i) (c',i')) (depth : Nat)
    {d d' : Rat} (hD : D d d') :
    Option.Rel (Happening.Like I O D) (a.happening? f c i depth d)
      (b.happening? g c' i' depth d') := by
  cases h with
  | value hab => exact .some (.left hI (hfg _ _ hab) hD)
  | raised fault =>
    dsimp only [Answer.happening?]
    split
    · exact .some (.failed hD)
    · exact .none
  | exhausted => exact .none

/-- As many traced nodes are open. -/
def Tracing.SameDepth (t t' : Tracing) : Prop := t'.depth = t.depth

namespace Hooks

/-- Two hooks that raise the same when they are told of two nodes that end alike, whatever calls they
got before and however long the nodes took. -/
structure Mirrored (w w' : World) (c c' : Context) (hook hook' : HookId) (name : Text) (i j : Int)
    (Q : Outcome → Outcome → Prop) : Prop where
  entered (xs ys : List Call) (depth : Nat) :
    (w'.hook hook').fault? ys (entering c' hook' name j depth) =
      (w.hook hook).fault? xs (entering c hook name i depth)
  told {a b : Answer Outcome} {xs ys : List Call} {span span' : Option Nat} {depth : Nat} :
    a.Like Q b →
    (w.hook hook).reply xs (entering c hook name i depth) = .ok span.isSome →
    (w'.hook hook').reply ys (entering c' hook' name j depth) = .ok span'.isSome →
      ∀ (u u' : State) (d d' : Rat),
        told w' ⟨hook',span',name,depth⟩ u' (b.happening? id c' j depth d') =
          told w ⟨hook,span,name,depth⟩ u (a.happening? id c i depth d)

variable {w w' : World} {c c' : Context} {hook hook' : HookId} {i j : Int}
  {Q : Outcome → Outcome → Prop}

/-- A hook mirrors itself if it heeds no more than what is related in two nodes. -/
theorem mirrored_of_heeds (hw : w'.hook = w.hook) {I : Context × Int → Context × Int → Prop}
    (hI : I (c,i) (c',j)) (hh : (w.hook hook).Heeds (fun _ _ => True)
      (Call.Alike (Happening.Like I Q fun _ _ => True))) (name : Text) :
    Mirrored w w' c c' hook hook name i j Q := by
  have hreply (xs ys : List Call) (depth : Nat) :
      (w'.hook hook).reply ys (entering c' hook name j depth) =
        (w.hook hook).reply xs (entering c hook name i depth) := by
    rw [hw]
    exact hh.reply trivial ⟨rfl,rfl,rfl,rfl,.entered hI⟩
  refine ⟨fun xs ys depth => Hook.fault?_eq_of_reply (hreply xs ys depth),?_⟩
  intro a b xs ys span span' depth hab hf hf' u u' d d'
  have hspan : span'.isSome = span.isSome :=
    Except.ok.inj (hf'.symm.trans ((hreply xs ys depth).trans hf))
  exact told_alike (congrFun hw hook) hh hspan trivial
    (hab.happening? (fun _ _ h => h) hI depth trivial) name depth

theorem mirrored_of_calm (hh : (w.hook hook).Calm) (hh' : (w'.hook hook').Calm) (name : Text) :
    Mirrored w w' c c' hook hook' name i j Q where
  entered xs ys depth := by rw [hh,hh']
  told {_ _ _ _ span span' depth} _ _ _ u u' d d' := by
    rw [told_calm w (v := ⟨hook,span,name,depth⟩) hh,told_calm w' (v := ⟨hook',span',name,depth⟩) hh']

/-- Hooks that do the same about the nodes, whatever they were told before. -/
theorem Mirrored.traces {name : Text} (hh : Mirrored w w' c c' hook hook' name i j Q)
    (hc : c'.config = c.config) (x y : Run Outcome) {s s' : State}
    (hdepth : s.tracing.SameDepth s'.tracing) :
    TracesBoth Tracing.SameDepth Q x y s (inside w c hook name i s) s'
      (traced id w c hook name i x s) (traced id w' c' hook' name j y s') := by
  have hentered := hh.entered s.tracing.calls s'.tracing.calls s.tracing.depth
  cases hd : Config.hides c.config s.tracing.depth with
  | true =>
    have hd' : Config.hides c'.config s'.tracing.depth = true := by rw [hc,hdepth,hd]
    exact .hidden (traced_hidden w c hook name i id hd) (traced_hidden w' c' hook' name j id hd')
  | false =>
    have hd' : Config.hides c'.config s'.tracing.depth = false := by rw [hc,hdepth,hd]
    cases hf : (w.hook hook).fault? s.tracing.calls (entering c hook name i s.tracing.depth) with
    | some fault =>
      rw [hf,← hdepth] at hentered
      rw [traced_refused c name i id hd hf,traced_refused c' name j id hd' hentered]
      exact .stopped rfl rfl rfl rfl hdepth
    | none =>
      rw [hf,← hdepth] at hentered
      rw [traced_entered c name i id hd hf,traced_entered c' name j id hd' hentered]
      refine .heard (v := inside w' c' hook' name j s') rfl rfl (congrArg (· + 1) hdepth) rfl rfl
        (fun hxy _ => ⟨?_,?_⟩) (memory_ended ..).symm (memory_ended ..).symm
      · have hreply := reply_visit w c hook name i s hf
        have hreply' := reply_visit w' c' hook' name j s' hentered
        rw [hdepth] at hreply' ⊢
        have hvisit' : visit w' c' hook' name j s' =
            ⟨hook',(visit w' c' hook' name j s').span,name,s.tracing.depth⟩ := by rw [← hdepth]; rfl
        rw [hvisit']
        exact hh.told hxy hreply hreply' _ _ _ _
      · simp only [Tracing.SameDepth,depth_ended,depth_visit]
        exact hdepth

end Hooks

namespace World

/-- Hooks without a memory that heed no more of a node than what is related here, or hooks that never
raise.  Either way what they raise does not depend on the calls before. -/
def Heeds (w : World) (I : Context × Int → Context × Int → Prop) (O : Outcome → Outcome → Prop) :
    Prop :=
  (∀ hook, (w.hook hook).Heeds (fun _ _ => True)
    (Call.Alike (Happening.Like I O fun _ _ => True))) ∨ ∀ hook, (w.hook hook).Calm

/-- Hooks without a memory that do not tell related outcomes apart, or hooks that never raise. -/
abbrev Overlooks (w : World) (O : Outcome → Outcome → Prop) : Prop := w.Heeds (· = ·) O

/-- Hooks without a memory, or hooks that never raise. -/
abbrev Steady (w : World) : Prop := w.Overlooks (· = ·)

theorem Overlooks.steady {w : World} {O : Outcome → Outcome → Prop} (h : w.Overlooks O)
    (hO : ∀ o, O o o) : w.Steady :=
  h.imp_left fun h hook => Hook.Overlooks.imp (h hook) fun o _ ho => ho ▸ hO o

section Mirrors

variable {w w' : World} {I : Context × Int → Context × Int → Prop} {O : Outcome → Outcome → Prop}
  {c c' : Context} {i j : Int}

theorem Heeds.mirrored (hh : w.Heeds I O) (hw : w'.hook = w.hook) (hI : I (c,i) (c',j))
    (hook : HookId) (name : Text) : Hooks.Mirrored w w' c c' hook hook name i j O := by
  rcases hh with hh | hh
  · exact Hooks.mirrored_of_heeds hw hI (hh hook) name
  · exact Hooks.mirrored_of_calm (hh hook) (hw ▸ hh hook) name

/-- The same of the hooks that a log reports to after different calls. -/
theorem Heeds.mirrored_chosen (hh : w.Heeds I O) (hw : w'.hook = w.hook) (hI : I (c,i) (c',j))
    (own given : Option HookId) (xs ys : List Call) (name : Text) :
    Hooks.Mirrored w w' c c' (Hooks.chosen w own given xs) (Hooks.chosen w' own given ys) name i j
      O := by
  rcases hh with hh | hh
  · have hchosen : Hooks.chosen w' own given ys = Hooks.chosen w own given xs :=
      Hooks.chosen_eq (fun hook => by rw [hw]; exact (hh hook).truth trivial) own given
    rw [hchosen]
    exact Hooks.mirrored_of_heeds hw hI (hh _) name
  · exact Hooks.mirrored_of_calm (hh _) (hw ▸ hh _) name

end Mirrors

/-- Hooks do the same after either of two records about nodes that begin at related places and end
with related outcomes: they have no memory and heed no more of a node than that, or they never raise;
or they may remember what they were told, heed no more than that of it, and were told the same but
for that. -/
inductive Indifferent (w : World) (I : Context × Int → Context × Int → Prop)
    (O : Outcome → Outcome → Prop) (t t' : Tracing) : Prop
  | steady : w.Heeds I O → t.SameDepth t' → w.Indifferent I O t t'
  | mindful : (∀ hook, (w.hook hook).Follows (Call.Twin (Happening.Like I O (· = ·)))) →
    t.InStep (Happening.Like I O (· = ·)) (· = ·) t' → w.Indifferent I O t t'

/-- Hooks do the same about every node after either of two records. -/
abbrev Impartial (w : World) : Tracing → Tracing → Prop := w.Indifferent (· = ·) (· = ·)

namespace Indifferent

variable {w : World} {I : Context × Int → Context × Int → Prop} {O : Outcome → Outcome → Prop}
  {c c' : Context} {i j : Int} {name : Text} {s s' : State} {t t' : Tracing}

theorem depth (h : w.Indifferent I O t t') : t.SameDepth t' := by
  cases h with
  | steady _ h => exact h
  | mindful _ h => exact h.depth

/-- Where nothing differs every hook does the same. -/
theorem refl (w : World) (t : Tracing) : w.Impartial t t := by
  have heq {xs ys : List Call}
      (h : List.Forall₂ (Call.Twin (Happening.Like (· = ·) (· = ·) (· = ·))) xs ys) : ys = xs := by
    have hxy : List.Forall₂ (· = ·) xs ys := h.imp fun _ _ hc => hc.eq.symm
    rw [List.forall₂_eq_eq_eq] at hxy
    exact hxy.symm
  have hsame (call : Call) : call.Twin (Happening.Like (· = ·) (· = ·) (· = ·)) call :=
    .self (.self (fun _ => rfl) (fun _ => rfl) fun _ => rfl) call
  refine .mindful (fun hook => ⟨fun h => ?_,fun h hc => ?_⟩)
    ⟨⟨List.forall₂_same.mpr fun call _ => hsame call,rfl⟩,rfl⟩
  · rw [heq h]
  · rw [heq h,hc.eq]

/-- Hooks without a memory look at no record. -/
theorem eq_sameDepth (h : w.Heeds I O) : w.Indifferent I O = Tracing.SameDepth := by
  funext t t'
  exact propext ⟨depth,.steady h⟩

/-- Hooks that look at records look at no more than whether they are in step. -/
theorem eq_inStep (hw : ¬ w.Heeds I O)
    (hh : ∀ hook, (w.hook hook).Follows (Call.Twin (Happening.Like I O (· = ·)))) :
    w.Indifferent I O = Tracing.InStep (Happening.Like I O (· = ·)) (· = ·) := by
  funext t t'
  refine propext ⟨fun h => ?_,.mindful hh⟩
  cases h with
  | steady h => exact absurd h hw
  | mindful _ h => exact h

/-- Nodes are traced alike by a hook that does the same about them. -/
theorem traces (hs : w.Indifferent I O s.tracing s'.tracing) (hI : I (c,i) (c',j))
    (hc : c'.config = c.config) (hook : HookId) (name : Text) (x y : Run Outcome) :
    Hooks.TracesBoth (w.Indifferent I O) O x y s (Hooks.inside w c hook name i s) s'
      (Hooks.traced id w c hook name i x s) (Hooks.traced id w c' hook name j y s') := by
  by_cases hw : w.Heeds I O
  · rw [eq_sameDepth hw]
    exact (hw.mirrored rfl hI hook name).traces hc x y hs.depth
  · cases hs with
    | steady h => exact absurd h hw
    | mindful hh ht =>
      rw [eq_inStep hw hh]
      refine Hooks.traces_inStep rfl (hh hook) (fun _ _ h => congrArg (· + 1) h) ht (.entered hI)
        (by rw [hc]) (fun a b u u' hab hu => hab.happening? (fun _ _ h => h) hI _ ?_) name x y
      -- the clock was read as often in both nodes, so that they took as long
      rw [Hooks.duration,Hooks.duration,hu,ht.readings]

/-- So they are where a log chooses the hook. -/
theorem traces_logged (hs : w.Indifferent I O s.tracing s'.tracing) (hI : I (c,i) (c',j))
    (hc : c'.config = c.config) (hhook : c'.hook = c.hook) (own : Option HookId) (name : Text)
    (x y : Run Outcome) :
    Hooks.TracesBoth (w.Indifferent I O) O x y s
      (Hooks.inside w c (Hooks.chosen w own c.hook s.tracing.calls) name i s) s'
      (Hooks.logged id w c own name i x s) (Hooks.logged id w c' own name j y s') := by
  rw [Hooks.logged_apply,Hooks.logged_apply,hhook]
  by_cases hw : w.Heeds I O
  · rw [eq_sameDepth hw]
    exact (hw.mirrored_chosen rfl hI own c.hook _ _ name).traces hc x y hs.depth
  · cases hs with
    | steady h => exact absurd h hw
    | mindful hh ht =>
      rw [Hooks.chosen_twin rfl hh ht.toTwins own c.hook]
      exact traces (.mindful hh ht) hI hc _ name x y

end Indifferent

end World

namespace Run

variable {I : Memory → Prop} {T : Tracing → Tracing → Prop} {α β : Type} {Q : α → β → Prop}

/-- From the same memory, of which something is known, and after records that are related, two
computations end alike and leave such states. -/
def Parallel (I : Memory → Prop) (T : Tracing → Tracing → Prop) (α β : Type) (Q : α → β → Prop)
    (x : Run α) (y : Run β) : Prop :=
  ∀ s s', I s.memory → s'.memory = s.memory → T s.tracing s'.tracing →
    (x s).1.Like Q (y s').1 ∧ (y s').2.memory = (x s).2.memory ∧
      T (x s).2.tracing (y s').2.tracing ∧ I (x s).2.memory

theorem parallel_lockstep (I : Memory → Prop) (T : Tracing → Tracing → Prop) :
    Parsing.Lockstep (Parallel I T) where
  done hQ _ _ hs hm ht := ⟨.value hQ,hm,ht,hs⟩
  raise fault _ _ hs hm ht := ⟨.raised fault,hm,ht,hs⟩
  exhaust _ _ hs hm ht := ⟨.exhausted,hm,ht,hs⟩
  bind := by
    intro α β γ δ P Q x y f g hx hf s s' hs hm ht
    obtain ⟨hxy,hmu,htu,hsu⟩ := hx s s' hs hm ht
    rw [Run.bind_apply,Run.bind_apply]
    rcases hxs : x s with ⟨a,u⟩
    rcases hys : y s' with ⟨b,u'⟩
    rw [hxs,hys] at hxy hmu htu
    rw [hxs] at hsu
    cases hxy with
    | value hab => exact hf _ _ hab u u' hsu hmu htu
    | raised fault => exact ⟨.raised fault,hmu,htu,hsu⟩
    | exhausted => exact ⟨.exhausted,hmu,htu,hsu⟩

theorem Parallel.imp {x : Run α} {y : Run β} {P : α → β → Prop} (h : Parallel I T _ _ P x y)
    (hPQ : ∀ a b, P a b → Q a b) : Parallel I T _ _ Q x y := by
  intro s s' hs hm ht
  obtain ⟨hxy,hu⟩ := h s s' hs hm ht
  exact ⟨hxy.imp hPQ,hu⟩

/-- Nodes that are parallel may be traced by hooks that do the same about them. -/
theorem Parallel.traced {x y : Run Outcome} {Q : Outcome → Outcome → Prop}
    (h : Parallel I T _ _ Q x y) {s u s' : State} {r r' : Answer Outcome × State}
    (htraces : Hooks.TracesBoth T Q x y s u s' r r') (hs : I s.memory) (hm : s'.memory = s.memory)
    (ht : T s.tracing s'.tracing) :
    r.1.Like Q r'.1 ∧ r'.2.memory = r.2.memory ∧ T r.2.tracing r'.2.tracing ∧ I r.2.memory := by
  cases htraces with
  | hidden hr hr' =>
    rw [hr,hr']
    exact h s s' hs hm ht
  | stopped hr hr' hu hu' hw =>
    rw [hr,hr',hu,hu']
    exact ⟨.raised _,hm,hw,hs⟩
  | @heard v _ _ hu hv hw hr hr' hsame hum hvm =>
    obtain ⟨hxy,hmv,htv,hsv⟩ := h u v (hu ▸ hs) (hv.trans (hm.trans hu.symm)) hw
    obtain ⟨htold,hw⟩ := hsame hxy htv
    rw [hr,hr',htold]
    exact ⟨hxy.heard _,hvm.symm.trans (hmv.trans hum),hw,hum ▸ hsv⟩

end Run
end Peg
