import Mathlib.Data.List.Forall2
import Peg.Proofs.Kinds
import Peg.Proofs.Loops
import Peg.Proofs.Tracing

/-! Tracing down to a depth beside tracing without a limit.
A node that lies too deep is run without its hook, and the nodes inside it lie too deep as well.  Main
statement: the calls of a parse with a limit are those of the same parse without one that are not too
deep, as long as none of those that are raises and no hook heeds them. -/
namespace Peg

/-- The same place in parses that differ only in how deep nodes are traced. -/
def Context.Trimmed (p q : Context × Int) : Prop :=
  q.1.text = p.1.text ∧ q.1.hook = p.1.hook ∧
    (q.1.config.getD {}).rules = (p.1.config.getD {}).rules ∧ q.2 = p.2

/-- What happens in parses that differ only in how deep nodes are traced; a node may take another
time. -/
abbrev Happening.Trimmed : Happening → Happening → Prop :=
  Like Context.Trimmed (· = ·) fun _ _ => True

namespace Call

/-- Those of the calls that are not too deep. -/
def downTo (m : Int) (calls : List Call) : List Call := calls.filter (·.depth ≤ m)

/-- Of the calls after some first ones, the newest first, none that is too deep raises. -/
def Calm (w : World) (m : Int) (first record : List Call) : Prop :=
  ∀ later call before, record = later ++ call :: before → first <:+ before → m < call.depth →
    (w.hook call.hook).fault? before call.asked = none

/-- Two records, the newest call first, that go on from two first ones: the second without the calls
that are too deep. -/
inductive Filtered (m : Int) (first first' : List Call) : List Call → List Call → Prop
  | start : Filtered m first first' first first'
  | kept {call call' : Call} {xs ys : List Call} : call.depth ≤ m →
    call.Alike Happening.Trimmed call' → Filtered m first first' xs ys →
      Filtered m first first' (call :: xs) (call' :: ys)
  | dropped {call : Call} {xs ys : List Call} : m < call.depth → Filtered m first first' xs ys →
    Filtered m first first' (call :: xs) ys

variable {w : World} {m : Int} {call : Call} {calls first first' xs ys : List Call}

theorem downTo_cons_of_le (h : call.depth ≤ m) : downTo m (call :: calls) = call :: downTo m calls := by
  simp [downTo,h]

theorem downTo_cons_of_lt (h : m < call.depth) : downTo m (call :: calls) = downTo m calls := by
  simp [downTo,h]

theorem Calm.of_suffix (h : Calm w m first ys) (hxy : xs <:+ ys) : Calm w m first xs := by
  obtain ⟨zs,rfl⟩ := hxy
  rintro later call before rfl hfirst hm
  exact h (zs ++ later) call before (List.append_assoc ..).symm hfirst hm

theorem Calm.head (h : Calm w m first (call :: xs)) (hfirst : first <:+ xs)
    (hm : m < call.depth) : (w.hook call.hook).fault? xs call.asked = none :=
  h [] call xs rfl hfirst hm

theorem Filtered.suffix (h : Filtered m first first' xs ys) : first <:+ xs := by
  induction h with
  | start => exact List.suffix_refl _
  | kept _ _ _ ih | dropped _ _ ih => exact ih.trans (List.suffix_cons ..)

/-- The second record has the calls of the first that are not too deep. -/
theorem Filtered.split (h : Filtered m first first' xs ys) :
    ∃ calls calls', xs = calls ++ first ∧ ys = calls' ++ first' ∧
      List.Forall₂ (Call.Alike Happening.Trimmed) (downTo m calls) calls' := by
  induction h with
  | start => exact ⟨[],[],rfl,rfl,.nil⟩
  | @kept call call' _ _ hm hcall _ ih =>
    obtain ⟨calls,calls',rfl,rfl,hc⟩ := ih
    refine ⟨call :: calls,call' :: calls',rfl,rfl,?_⟩
    rw [downTo_cons_of_le hm]
    exact .cons hcall hc
  | @dropped call _ _ hm _ ih =>
    obtain ⟨calls,calls',rfl,rfl,hc⟩ := ih
    refine ⟨call :: calls,calls',rfl,rfl,?_⟩
    rw [downTo_cons_of_lt hm]
    exact hc

end Call

/-- As many nodes are open, or too many in both. -/
def Tracing.SameLevel (m : Int) (t t' : Tracing) : Prop :=
  t.depth ≤ m ∧ t'.depth = t.depth ∨ m < t.depth ∧ m < t'.depth

theorem Tracing.SameLevel.refl (m : Int) (t : Tracing) : t.SameLevel m t := by
  unfold SameLevel
  omega

namespace Run

open Call

variable {w : World} {m : Int} {first first' : List Call} {α β : Type}

/-- A computation adds calls to the record and leaves as many nodes open as before. -/
def Grows (x : Run α) : Prop :=
  ∀ s, s.tracing.calls <:+ (x s).2.tracing.calls ∧ (x s).2.tracing.depth = s.tracing.depth

theorem Grows.of_untold {x : Run α} (h : Rules.Untold x) : x.Grows := by
  intro s
  rw [h s]
  exact ⟨List.suffix_refl _,rfl⟩

theorem Grows.bind {x : Run α} {f : α → Run β} (hx : x.Grows) (hf : ∀ a, (f a).Grows) :
    (x >>= f).Grows := by
  intro s
  have hxs := hx s
  rw [bind_apply]
  rcases h : x s with ⟨a | fault | _,u⟩
  all_goals rw [h] at hxs
  · exact ⟨hxs.1.trans (hf a u).1,(hf a u).2.trans hxs.2⟩
  · exact hxs
  · exact hxs

theorem Grows.traced {x : Run Outcome} (h : x.Grows) (w : World) (c : Context) (hook : HookId)
    (name : Text) (i : Int) : (Hooks.traced id w c hook name i x).Grows := by
  intro s
  cases hd : Config.hides c.config s.tracing.depth with
  | true =>
    rw [Hooks.traced_hidden w c hook name i id hd]
    exact h s
  | false =>
    cases hf : (w.hook hook).fault? s.tracing.calls
      (Hooks.entering c hook name i s.tracing.depth) with
    | some fault =>
      rw [Hooks.traced_refused c name i id hd hf]
      exact ⟨Hooks.calls_entered w c hook name i s ▸ List.suffix_cons ..,rfl⟩
    | none =>
      rw [Hooks.traced_entered c name i id hd hf]
      have hinside := (h (Hooks.inside w c hook name i s)).1
      rw [Hooks.calls_inside] at hinside
      refine ⟨?_,Hooks.depth_ended ..⟩
      rw [Hooks.calls_ended]
      exact (List.suffix_cons ..).trans (hinside.trans (List.suffix_append ..))

/-- What a computation came to beside what another one did: as long as none of the calls of the first
that lie too deep raises, both end in the same way, and the second made the other calls. -/
def FiltersAt (w : World) (m : Int) (first first' : List Call) (s' : State) (r r' : Answer α × State) :
    Prop :=
  Calm w m first r.2.tracing.calls → ∃ u', r' = (r.1,u') ∧ u'.memory = r.2.memory ∧
    u'.tracing.depth = s'.tracing.depth ∧
      Filtered m first first' r.2.tracing.calls u'.tracing.calls

/-- A computation beside the same one with a limit. -/
structure Filters (w : World) (m : Int) (first first' : List Call) (x y : Run α) : Prop where
  grows : x.Grows
  filters {s s' : State} : s'.memory = s.memory → s.tracing.SameLevel m s'.tracing →
    Filtered m first first' s.tracing.calls s'.tracing.calls →
      FiltersAt w m first first' s' (x s) (y s')

theorem Filters.of_onMemory {x : Run α} (h : Rules.OnMemory x) : Filters w m first first' x x where
  grows := .of_untold h.untold
  filters := by
    intro s s' hm _ hs _
    rw [h s s' hm,h.untold s]
    exact ⟨_,rfl,rfl,rfl,hs⟩

theorem Filters.of_answer {r : Answer α} :
    Filters w m first first' (fun s => (r,s)) fun s => (r,s) :=
  .of_onMemory fun s s' h => by rw [← h]

theorem Filters.bind {x y : Run α} {f g : α → Run β} (hx : Filters w m first first' x y)
    (hf : ∀ a, Filters w m first first' (f a) (g a)) :
    Filters w m first first' (x >>= f) (y >>= g) where
  grows := hx.grows.bind fun a => (hf a).grows
  filters := by
    intro s s' hm hl hs
    have hxs := hx.filters hm hl hs
    have hdepth := (hx.grows s).2
    unfold FiltersAt at hxs ⊢
    rw [bind_apply,bind_apply]
    rcases hx' : x s with ⟨a | fault | _,u⟩
    all_goals
      rw [hx'] at hxs hdepth
      intro hcalm
    · -- the calls of the whole are also those of its first part
      obtain ⟨u',hy,hm',hdu,hk⟩ := hxs (hcalm.of_suffix ((hf a).grows u).1)
      have hlevel : u.tracing.SameLevel m u'.tracing := by
        rw [Tracing.SameLevel,hdu,show u.tracing.depth = s.tracing.depth from hdepth]
        exact hl
      obtain ⟨v',hg,hmv,hdv,hk'⟩ := (hf a).filters hm' hlevel hk hcalm
      rw [hy]
      exact ⟨v',hg,hmv,hdv.trans hdu,hk'⟩
    all_goals
      obtain ⟨u',hy,hrest⟩ := hxs hcalm
      rw [hy]
      exact ⟨u',rfl,hrest⟩

theorem filters_congruence (w : World) (m : Int) (first first' : List Call) :
    Parsing.Congruence fun (α : Type) (x y : Run α) => Filters w m first first' x y where
  done _ := .of_answer
  bind := .bind
  raise _ := .of_answer
  exhaust := .of_answer

section Nodes

open Hooks

variable {c c' : Context} {hook : HookId} {name : Text} {i : Int} {s s' : State}

/-- What is told at the end of a node that gave one answer, in both parses. -/
theorem trimmed_happening (hc : Context.Trimmed (c,i) (c',i)) (r : Answer Outcome) (depth : Nat)
    (duration duration' : Rat) :
    Option.Rel Happening.Trimmed (r.happening? id c i depth duration)
      (r.happening? id c' i depth duration') := by
  rcases r with o | fault | _
  · exact .some (.left hc rfl trivial)
  · dsimp only [Answer.happening?]
    split
    · exact .some (.failed trivial)
    · exact .none
  · exact .none

/-- A node that is not too deep is told of in both computations. -/
theorem Filters.shallow {x y : Run Outcome} (h : Filters w m first first' x y)
    (hk : (w.hook hook).Heeds (Filtered m first first') (Call.Alike Happening.Trimmed))
    (hcc : Context.Trimmed (c,i) (c',i)) (hc : Config.hides c.config s.tracing.depth = false)
    (hc' : Config.hides c'.config s'.tracing.depth = false) (hm : s'.memory = s.memory)
    (hle : s.tracing.depth ≤ m) (hd : s'.tracing.depth = s.tracing.depth)
    (hs : Filtered m first first' s.tracing.calls s'.tracing.calls) :
    FiltersAt w m first first' s' (traced id w c hook name i x s) (traced id w c' hook name i y s') := by
  have hasked : (entering c hook name i s.tracing.depth).Alike Happening.Trimmed
      (entering c' hook name i s'.tracing.depth) := ⟨rfl,rfl,rfl,hd,hd ▸ .entered hcc⟩
  have hspan : (visit w c' hook name i s').span.isSome = (visit w c hook name i s).span.isSome := by
    rw [isSome_span_visit,isSome_span_visit,hk.reply hs hasked]
  have hopen : Filtered m first first'
      ((visit w c hook name i s).call (.entered c i s.tracing.depth) :: s.tracing.calls)
      ((visit w c' hook name i s').call (.entered c' i s'.tracing.depth) :: s'.tracing.calls) :=
    .kept hle ⟨rfl,hspan,rfl,hd,hd ▸ .entered hcc⟩ hs
  cases hf : (w.hook hook).fault? s.tracing.calls (entering c hook name i s.tracing.depth) with
  | some fault =>
    rw [traced_refused c name i id hc hf,traced_refused c' name i id hc' (hk.fault? hs hasked ▸ hf)]
    refine fun _ => ⟨_,rfl,hm,rfl,?_⟩
    rw [calls_entered,calls_entered]
    exact hopen
  | none =>
    rw [traced_entered c name i id hc hf,traced_entered c' name i id hc' (hk.fault? hs hasked ▸ hf)]
    have hinside : FiltersAt w m first first' (inside w c' hook name i s')
        (x (inside w c hook name i s)) (y (inside w c' hook name i s')) := h.filters hm
      (by simp only [Tracing.SameLevel,depth_inside]; omega)
      (by rw [calls_inside,calls_inside]; exact hopen)
    unfold FiltersAt at hinside ⊢
    rcases hx : x (inside w c hook name i s) with ⟨r,u⟩
    rw [hx] at hinside
    intro hcalm
    dsimp only at hcalm hinside ⊢
    rw [calls_ended] at hcalm
    obtain ⟨u',hy,hm',-,hk'⟩ := hinside (hcalm.of_suffix (List.suffix_append ..))
    have hhappening := trimmed_happening hcc r s.tracing.depth (duration w s u) (duration w s' u')
    have hvisit : visit w c' hook name i s' =
        ⟨hook,(visit w c' hook name i s').span,name,s.tracing.depth⟩ := by
      rw [← hd]
      rfl
    have htold : told w (visit w c' hook name i s') u'
        (r.happening? id c' i s.tracing.depth (duration w s' u')) =
          told w (visit w c hook name i s) u
            (r.happening? id c i s.tracing.depth (duration w s u)) := by
      rw [hvisit]
      exact told_alike rfl hk hspan hk' hhappening name s.tracing.depth
    rw [hy,hd]
    refine ⟨_,Prod.ext (congrArg r.heard htold) rfl,?_,?_,?_⟩
    · rw [memory_ended,memory_ended]
      exact hm'
    · rw [depth_ended]
      exact hd
    · rw [calls_ended,calls_ended]
      generalize r.happening? id c i s.tracing.depth (duration w s u) = x at hhappening
      generalize r.happening? id c' i s.tracing.depth (duration w s' u') = y at hhappening
      cases hhappening with
      | none => exact hk'
      | some hxy => exact .kept hle ⟨rfl,hspan,rfl,hd,hxy⟩ hk'

/-- A node that is too deep is in the second computation only what is inside it. -/
theorem Filters.deep {x y : Run Outcome} (h : Filters w m first first' x y)
    (hc : Config.hides c.config s.tracing.depth = false) (hm : s'.memory = s.memory)
    (hlt : m < s.tracing.depth) (hlt' : m < s'.tracing.depth)
    (hs : Filtered m first first' s.tracing.calls s'.tracing.calls) :
    FiltersAt w m first first' s' (traced id w c hook name i x s) (y s') := by
  have hopen : Filtered m first first'
      ((visit w c hook name i s).call (.entered c i s.tracing.depth) :: s.tracing.calls)
      s'.tracing.calls := .dropped hlt hs
  cases hf : (w.hook hook).fault? s.tracing.calls (entering c hook name i s.tracing.depth) with
  | some fault =>
    rw [traced_refused c name i id hc hf]
    intro hcalm
    rw [calls_entered] at hcalm
    cases hf.symm.trans (hcalm.head hs.suffix hlt)
  | none =>
    rw [traced_entered c name i id hc hf]
    -- the second computation does not count the node, but what is inside lies too deep in both
    have hinside : FiltersAt w m first first' s' (x (inside w c hook name i s)) (y s') := h.filters hm
      (by simp only [Tracing.SameLevel,depth_inside]; omega) (by rw [calls_inside]; exact hopen)
    unfold FiltersAt at hinside ⊢
    rcases hx : x (inside w c hook name i s) with ⟨r,u⟩
    rw [hx] at hinside
    intro hcalm
    dsimp only at hcalm hinside ⊢
    rw [calls_ended] at hcalm
    obtain ⟨u',hy,hm',hd',hk⟩ := hinside (hcalm.of_suffix (List.suffix_append ..))
    have htold : told w (visit w c hook name i s) u
        (r.happening? id c i s.tracing.depth (duration w s u)) = none := by
      rcases r with o | fault | _
      · exact hcalm.head hk.suffix hlt
      · dsimp only [Answer.happening?] at hcalm ⊢
        cases herror : fault.isError with
        | true =>
          rw [herror] at hcalm
          exact hcalm.head hk.suffix hlt
        | false => rfl
      · rfl
    rw [htold,Answer.heard_none,memory_ended,calls_ended]
    refine ⟨u',hy,hm',hd',?_⟩
    cases r.happening? id c i s.tracing.depth (duration w s u) with
    | none => exact hk
    | some x => exact .dropped hlt hk

theorem Filters.traced {x y : Run Outcome} (h : Filters w m first first' x y)
    (hk : (w.hook hook).Heeds (Filtered m first first') (Call.Alike Happening.Trimmed))
    (hcc : Context.Trimmed (c,i) (c',i)) (hc : ∀ depth, Config.hides c.config depth = false)
    (hc' : ∀ depth, Config.hides c'.config depth = decide (m < depth)) (name : Text) :
    Filters w m first first' (Hooks.traced id w c hook name i x)
      (Hooks.traced id w c' hook name i y) where
  grows := h.grows.traced w c hook name i
  filters := by
    intro s s' hm hl hs
    rcases hl with ⟨hle,hd⟩ | ⟨hlt,hlt'⟩
    · have hshown : Config.hides c'.config s'.tracing.depth = false :=
        (hc' _).trans (decide_eq_false (by omega))
      exact h.shallow hk hcc (hc _) hshown hm hle hd hs
    · have hhidden : Config.hides c'.config s'.tracing.depth = true :=
        (hc' _).trans (decide_eq_true hlt')
      rw [traced_hidden w c' hook name i id hhidden]
      exact h.deep (hc _) hm hlt hlt' hs

end Nodes
end Run

section Configs

variable {config : Option Config} {rules : Bool}

/-- Without a limit nothing is hidden. -/
theorem Config.hides_of_getD (h : config.getD {} = ⟨rules,none⟩) (depth : Nat) :
    hides config depth = false := by
  cases config with
  | none => rfl
  | some c =>
    obtain rfl : c = ⟨rules,none⟩ := h
    rfl

/-- Whether rules are traced does not depend on the limit. -/
theorem Context.tracesRules_of_getD (h : config.getD {} = ⟨rules,none⟩) (t : Text)
    (hook : Option HookId) (m : Option Int) :
    (Context.mk t hook (some ⟨rules,m⟩)).tracesRules = (Context.mk t hook config).tracesRules := by
  cases config with
  | none =>
    obtain rfl : false = rules := congrArg Config.rules h
    cases hook <;> rfl
  | some c =>
    obtain rfl : c = ⟨rules,none⟩ := h
    cases hook <;> rfl

end Configs

namespace Parsing

open Run Call

variable {w : World} {m : Int} {c c' : Context} {first first' : List Call}

theorem run_filters
    (hk : ∀ hook, (w.hook hook).Heeds (Filtered m first first') (Call.Alike Happening.Trimmed))
    (hcc : ∀ i, Context.Trimmed (c,i) (c',i)) (hr : c'.tracesRules = c.tracesRules)
    (hc : ∀ depth, Config.hides c.config depth = false)
    (hc' : ∀ depth, Config.hides c'.config depth = decide (m < depth)) (n : Nat) (p : Parser)
    (i : Int) : Filters w m first first' (run w c n p i) (run w c' n p i) := by
  have hR := filters_congruence w m first first'
  induction n generalizing p i with
  | zero => exact hR.exhaust
  | succ n ih =>
    rw [run.eq_2,run.eq_2,(hcc i).1]
    refine hR.node c.text p i (fun q _ j => ih q j) (fun _ _ _ _ _ q _ _ j => ih q j) ?_ ?_ ?_
    · exact fun id parts _ => .of_onMemory (Rules.OnMemory.shape (Rules.OnMemory.isUnit n) id parts)
    · intro r name _
      refine (Filters.of_onMemory (Rules.OnMemory.body r)).bind fun q => ?_
      rw [hr]
      cases c.tracesRules with
      | some hook => exact (ih q i).traced (hk hook) (hcc i) hc hc' name
      | none => exact ih q i
    · intro id body name own _
      refine ⟨fun s => (ih body i).grows.traced w c _ name i s,?_⟩
      intro s s' hm hl hs
      change FiltersAt w m first first' s' (Hooks.logged _ w c own name i _ s)
        (Hooks.logged _ w c' own name i _ s')
      rw [Hooks.logged_apply,Hooks.logged_apply,(hcc i).2.1,
        Hooks.chosen_eq (fun hook => (hk hook).truth hs) own c.hook]
      exact ((ih body i).traced (hk _) (hcc i) hc hc' name).filters hm hl hs

/-- As long as no call that lies too deep raises, and no hook heeds such calls, how long nodes take or
the limit, a parse with a limit ends as the same parse without one, and its calls are the calls of
that parse that are not too deep. -/
theorem parse_filtered {limit : Nat} {p : Parser} {t : Text} {i : Int} {hook hook' : Option HookId}
    {config config' : Option Config} {rules : Bool} {s s' : State} (hm : s'.memory = s.memory)
    (hh : hook'.or s'.ambientHook = hook.or s.ambientHook)
    (hc : (config.or s.ambientConfig).getD {} = ⟨rules,none⟩)
    (hc' : config'.or s'.ambientConfig = some ⟨rules,some m⟩)
    (hk : ∀ hook, (w.hook hook).Heeds (Filtered m s.tracing.calls s'.tracing.calls)
      (Call.Alike Happening.Trimmed))
    (hcalm : Calm w m s.tracing.calls (parse w limit p t i hook config s).2.tracing.calls) :
    (parse w limit p t i hook' config' s').1 = (parse w limit p t i hook config s).1 ∧
      ∃ calls calls',
        (parse w limit p t i hook config s).2.tracing.calls = calls ++ s.tracing.calls ∧
        (parse w limit p t i hook' config' s').2.tracing.calls = calls' ++ s'.tracing.calls ∧
          List.Forall₂ (Call.Alike Happening.Trimmed) (downTo m calls) calls' := by
  have hrules : (Context.mk t (hook'.or s'.ambientHook) (config'.or s'.ambientConfig)).tracesRules =
      (Context.mk t (hook.or s.ambientHook) (config.or s.ambientConfig)).tracesRules := by
    rw [hh,hc']
    exact Context.tracesRules_of_getD hc t _ _
  have hshown (depth : Nat) : Config.hides (config.or s.ambientConfig) depth = false :=
    Config.hides_of_getD hc depth
  have hhides (depth : Nat) :
      Config.hides (config'.or s'.ambientConfig) depth = decide (m < depth) := by
    rw [hc']
    rfl
  have htrimmed (i : Int) : Context.Trimmed
      (⟨t,hook.or s.ambientHook,config.or s.ambientConfig⟩,i)
      (⟨t,hook'.or s'.ambientHook,config'.or s'.ambientConfig⟩,i) :=
    ⟨rfl,hh,by rw [hc,hc']; rfl,rfl⟩
  have hrun : FiltersAt w m s.tracing.calls s'.tracing.calls (s'.setDepth 0)
      (parse w limit p t i hook config s) (parse w limit p t i hook' config' s') :=
    (run_filters hk htrimmed hrules hshown hhides limit p i).filters hm (.refl m _) .start
  obtain ⟨u',hy,-,-,hfiltered⟩ := hrun hcalm
  have hparse : parse w limit p t i hook' config' s' = _ := hy
  rw [hparse]
  obtain ⟨calls,calls',hcalls,hcalls',hforall⟩ := hfiltered.split
  exact ⟨rfl,calls,calls',hcalls,hcalls',hforall⟩

/-- A log around another one, each with its own hook. -/
def loggedApart : Parser := .log (.named "outer") (.log (.named "inner")
  (.word (.named "a") "a".toList) "in".toList (some (.numbered 1))) "out".toList
    (some (.numbered 0))

/-- The first two hooks note every call; each may raise on one occasion. -/
def twoHooks (outer inner : Option Occasion) : World where
  supply _ _ := .error .notReady
  hook hook := .recording (if hook = .numbered 0 then outer else inner)
  clock _ := 0

theorem parse_exit_filtered :
    let w := twoHooks (some .exit) none
    let r := parse w 9 loggedApart "a".toList 0 none (some ⟨false,none⟩) {}
    let r' := parse w 9 loggedApart "a".toList 0 none (some ⟨false,some 0⟩) {}
    r.2.tracing.calls.length = 4 ∧ r'.1 = r.1 ∧ ∃ calls calls',
      r.2.tracing.calls = calls ++ [] ∧ r'.2.tracing.calls = calls' ++ [] ∧
        List.Forall₂ (Call.Alike Happening.Trimmed) (downTo 0 calls) calls' := by
  intro w r r'
  have hinner : ∀ call ∈ r.2.tracing.calls, 0 < call.depth → call.hook = .numbered 1 := by decide
  have hcalm : Calm w 0 [] r.2.tracing.calls := by
    intro later call before hcalls _ hdepth
    rw [hinner call (by simp [hcalls]) (by exact_mod_cast hdepth)]
    exact Hook.calm_recording before call.asked
  refine ⟨rfl,@parse_filtered w 0 9 loggedApart "a".toList 0 none none (some ⟨false,none⟩)
    (some ⟨false,some 0⟩) false {} {} rfl rfl rfl rfl (fun hook => ?_) hcalm⟩
  exact (Hook.heeds_recording _).mono (fun _ _ _ => trivial) fun _ _ h => h.imp fun _ _ hl =>
    hl.imp (fun _ _ _ => trivial) (fun _ _ _ => trivial) fun _ _ h => h

/-- A hook that raises at its fifth call. -/
def raisingFifth : Hook where
  shows _ _ := []
  answer before _ := if before.length = 4 then .error (.raisedByHook "fifth".toList) else .ok none

/-- Two letters in a row, the first of them in two logs. -/
def loggedInRow : Parser :=
  .seq (.named "row") [.log (.named "outer") (letter "in" 'a') "out".toList none,letter "last" 'b']
where
  letter (name : String) (c : Char) : Parser :=
    .log (.named name) (.word (.named "letter") [c]) name.toList none

/-- A call that raises at a depth that the limit leaves out ends only the parse without a limit; and
a hook that counts its calls raises later, or not at all, where it gets fewer of them. -/
theorem deep_raise_unfiltered :
    let calls (w : World) (p : Parser) (m : Option Int) : List Call :=
      (parse w 9 p "ab".toList 0 (some (.numbered 0)) (some ⟨false,m⟩) {}).2.tracing.calls
    let occasions (calls : List Call) : List Occasion := calls.map (·.happening.occasion)
    let raising : World := twoHooks none (some .enter)
    let counting : World := ⟨fun _ _ => .error .notReady,fun _ => raisingFifth,fun _ => 0⟩
    occasions (calls raising loggedApart (some 0)) ≠
        occasions (downTo 0 (calls raising loggedApart none)) ∧
      Calm counting 0 [] (calls counting loggedInRow none) ∧
      occasions (calls counting loggedInRow (some 0)) ≠
        occasions (downTo 0 (calls counting loggedInRow none)) := by
  intro calls occasions raising counting
  refine ⟨by decide,?_,by decide⟩
  intro later call before hcalls _ hdepth
  have hlength : (calls counting loggedInRow none).length = 5 := by decide
  have hnewest : ((calls counting loggedInRow none).head?.map Call.depth) = some 0 := by decide
  change Hook.fault? raisingFifth before call.asked = none
  by_cases hbefore : before.length = 4
  · rw [hcalls,List.length_append,List.length_cons,hbefore] at hlength
    obtain rfl : later = [] := List.length_eq_zero_iff.mp (by omega)
    rw [hcalls] at hnewest
    have hzero : call.depth = 0 := Option.some.inj hnewest
    rw [hzero] at hdepth
    exact absurd hdepth (by decide)
  · simp [Hook.fault?,raisingFifth,hbefore]

end Parsing
end Peg
