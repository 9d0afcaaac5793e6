import Peg.Proofs.Forests
import Peg.Proofs.Sessions

/-! Spans along the tree of traced nodes.
What is traced in a session is a forest, one parse after another.  Main statement: a hook that opens
spans makes of the session one span for each of its nodes that is not too deep, inside the span of
the node of its own around it, and its open spans are in the end those before; unless it is not told
how one of these nodes ended, or is told of an error that has no text. -/
namespace Peg

/-- The span that is started. -/
def Event.started? : Event → Option Nat
  | .spanStarted span .. => some span
  | _ => none

/-- The span that is ended. -/
def Event.ended? : Event → Option Nat
  | .spanEnded span => some span
  | _ => none

/-- The span that a hook gave to a visit, if it is its own. -/
def Visit.spanOf (v : Visit) (hook : HookId) : Option Nat := if v.hook = hook then v.span else none

theorem Visit.spanOf_eq_none {v : Visit} {hook : HookId} (h : v.spanOf hook = none) :
    v.hook = hook → v.span = none := by
  rintro rfl
  rwa [spanOf,if_pos rfl] at h

theorem Visit.spanOf_eq_some {v : Visit} {hook : HookId} {span : Nat}
    (h : v.spanOf hook = some span) : v.hook = hook ∧ v.span = some span := by
  unfold spanOf at h
  split at h
  · rename_i hv
    exact ⟨hv,h⟩
  · cases h

namespace TraceTree

/-- What is seen of a span when its node is closed: whether the node succeeded, or that it did not and
the error that passed through it as the status. -/
def Ending.events (span : Nat) : Ending → List Event
  | left o duration => Spans.leaving span o duration
  | failed fault duration =>
    [.spanAttribute span "kompeg.success".toList (.bool false),
      .spanAttribute span "kompeg.duration_ms".toList (.float (Decimal.toFloat duration)),
      .spanFault span fault,.spanStatus span fault.message,.spanEnded span]

mutual
/-- What a hook that opens spans makes of a node and those inside it: a span around the spans inside,
unless the node reports to another hook or was given none. -/
def events (hook : HookId) (parent : Option Nat) : TraceTree → List Event
  | refused .. => []
  | node v _ i inner ending =>
    match v.spanOf hook with
    | some span =>
      Spans.opening span parent v.name i v.depth ++
        (eventsAll hook (some span) inner ++ ending.events span)
    | none => eventsAll hook parent inner
  | abandoned v _ i inner =>
    match v.spanOf hook with
    | some span =>
      Spans.opening span parent v.name i v.depth ++ eventsAll hook (some span) inner
    | none => eventsAll hook parent inner

def eventsAll (hook : HookId) (parent : Option Nat) : List TraceTree → List Event
  | [] => []
  | t :: ts => events hook parent t ++ eventsAll hook parent ts
end

/-- A node with so many around it, where of those that report to a hook exactly those that are not too
deep have a span, and none is refused. -/
inductive Spanned (hook : HookId) (deepest : Option Int) : Nat → TraceTree → Prop
  | refused {v : Visit} {c : Context} {i : Int} :
    v.hook ≠ hook → Spanned hook deepest v.depth (.refused v c i)
  | node {v : Visit} {c : Context} {i : Int} {inner : List TraceTree} {ending : Ending} :
    (v.hook = hook → (v.span.isSome = true ↔ ∀ m ∈ deepest, (v.depth : Int) ≤ m)) →
      (∀ t ∈ inner, Spanned hook deepest (v.depth + 1) t) →
        Spanned hook deepest v.depth (.node v c i inner ending)
  | abandoned {v : Visit} {c : Context} {i : Int} {inner : List TraceTree} :
    (v.hook = hook → (v.span.isSome = true ↔ ∀ m ∈ deepest, (v.depth : Int) ≤ m)) →
      (∀ t ∈ inner, Spanned hook deepest (v.depth + 1) t) →
        Spanned hook deepest v.depth (.abandoned v c i inner)

/-- A hook is told how each of the nodes ended to which it gave a span, and where it is told of an
error, the error has a text. -/
inductive Closes (longest : Option Nat) (hook : HookId) : TraceTree → Prop
  | refused {v : Visit} {c : Context} {i : Int} : Closes longest hook (.refused v c i)
  | node {v : Visit} {c : Context} {i : Int} {inner : List TraceTree} {ending : Ending} :
    (∀ fault duration, (v.spanOf hook).isSome = true → ending = .failed fault duration →
      fault.told longest = .ok fault.message) →
      (∀ t ∈ inner, Closes longest hook t) → Closes longest hook (.node v c i inner ending)
  | abandoned {v : Visit} {c : Context} {i : Int} {inner : List TraceTree} :
    v.spanOf hook = none → (∀ t ∈ inner, Closes longest hook t) →
      Closes longest hook (.abandoned v c i inner)

theorem callsAll_append (ts us : List TraceTree) :
    callsAll (ts ++ us) = callsAll ts ++ callsAll us := by
  induction ts with
  | nil => rfl
  | cons t ts ih => rw [List.cons_append,callsAll,callsAll,ih,List.append_assoc]

variable {longest : Option Nat} {hook : HookId}

theorem eventsAll_append (parent : Option Nat) (ts us : List TraceTree) :
    eventsAll hook parent (ts ++ us) = eventsAll hook parent ts ++ eventsAll hook parent us := by
  induction ts with
  | nil => rfl
  | cons t ts ih => rw [List.cons_append,eventsAll,eventsAll,ih,List.append_assoc]

@[simp] theorem Ending.started_events (ending : Ending) (span : Nat) :
    (ending.events span).filterMap Event.started? = [] := by
  cases ending <;> rfl

@[simp] theorem Ending.ended_events (ending : Ending) (span : Nat) :
    (ending.events span).filterMap Event.ended? = [span] := by
  cases ending <;> rfl

mutual
/-- Every span that is started is ended, and no other. -/
theorem ended_perm (parent : Option Nat) : ∀ {t : TraceTree}, t.Closes longest hook →
    ((events hook parent t).filterMap Event.ended?).Perm
      ((events hook parent t).filterMap Event.started?)
  | refused .., _ => .nil
  | node v c i inner ending, .node _ hinner => by
    rw [events]
    cases v.spanOf hook with
    | none => exact endedAll_perm parent hinner
    | some span =>
      have hopening (f : Event → Option Nat) (hf : ∀ span key value,
          f (.spanAttribute span key value) = none) :
          (Spans.opening span parent v.name i v.depth).filterMap f =
            (f (.spanStarted span v.name parent)).toList := by
        cases hs : f (.spanStarted span v.name parent) <;> simp [Spans.opening,hf,hs]
      simp only [List.filterMap_append,hopening Event.started? fun _ _ _ => rfl,
        hopening Event.ended? fun _ _ _ => rfl,Ending.started_events,Ending.ended_events,
        Event.started?,Event.ended?,Option.toList_some,Option.toList_none,List.nil_append,
        List.append_nil,List.singleton_append]
      exact (List.perm_append_singleton span _).trans ((endedAll_perm (some span) hinner).cons span)
  | abandoned v c i inner, .abandoned hspan hinner => by
    rw [events,hspan]
    exact endedAll_perm parent hinner

theorem endedAll_perm (parent : Option Nat) : ∀ {ts : List TraceTree},
    (∀ t ∈ ts, t.Closes longest hook) →
      ((eventsAll hook parent ts).filterMap Event.ended?).Perm
        ((eventsAll hook parent ts).filterMap Event.started?)
  | [], _ => .nil
  | t :: ts, h => by
    rw [eventsAll,List.filterMap_append,List.filterMap_append]
    exact (ended_perm parent (h t List.mem_cons_self)).append
      (endedAll_perm parent fun x hx => h x (List.mem_cons_of_mem t hx))
end

end TraceTree

namespace Spans

variable {longest : Option Nat} {hook : HookId}

/-- A call without a span leaves the spans of its hook, and so does a call of another hook. -/
theorem ofCalls_cons_quiet {call : Call} (h : call.hook = hook → call.span = none)
    (calls : List Call) : ofCalls longest hook (call :: calls) = ofCalls longest hook calls := by
  rw [ofCalls]
  split
  · rename_i hcall
    rw [after,h hcall]
  · rfl

theorem ofCalls_cons_own {call : Call} (h : call.hook = hook) (calls : List Call) :
    ofCalls longest hook (call :: calls) = (ofCalls longest hook calls).after longest call :=
  if_pos h

end Spans

namespace Tracing

open Hooks TraceTree

/-- The spans of a hook. -/
def spans (longest : Option Nat) (hook : HookId) (t : Tracing) : Spans :=
  Spans.ofCalls longest hook t.calls

/-- What the owner of a hook has seen, in the order in which it came. -/
def seen (hook : HookId) (t : Tracing) : List Event :=
  (t.output.filter (·.1 = hook)).reverse.map Prod.snd

section Told

variable {hook : HookId} {h : Hook} {call : Call} {t : Tracing}

theorem seen_tell_own (hc : call.hook = hook) :
    (t.tell h call).seen hook = t.seen hook ++ h.shows t.calls call := by
  simp [seen,tell,List.filter_append,List.filter_map,Function.comp_def,hc]

theorem seen_tell_other (hc : call.hook ≠ hook) : (t.tell h call).seen hook = t.seen hook := by
  simp [seen,tell,List.filter_append,List.filter_map,Function.comp_def,hc]

end Told

section Visits

variable {w : World} {longest : Option Nat} {deepest : Option Int} {c : Context} {hook : HookId}
  {i : Int} {t : Tracing} {v : Visit} {ending : Ending}

/-- Entering a node that is given no span by a hook changes nothing for it. -/
theorem opened_quiet (hk : w.hook hook = Spans.hook longest deepest) (hd : v.depth = t.depth)
    (ha : (w.hook v.hook).answer t.calls (entering c v.hook v.name i t.depth) = .ok v.span)
    (hv : v.spanOf hook = none) :
    (t.opened w c v.hook v.name i).spans longest hook = t.spans longest hook ∧
      (t.opened w c v.hook v.name i).seen hook = t.seen hook := by
  constructor
  · rw [spans,opened,calls_asked_of_ok hd ha]
    exact Spans.ofCalls_cons_quiet (Visit.spanOf_eq_none hv) _
  · by_cases ho : v.hook = hook
    · have hgiven : (Spans.ofCalls longest v.hook t.calls).given deepest t.depth = none := by
        rw [ho,hk] at ha
        have hspan := Visit.spanOf_eq_none hv ho
        rw [hspan] at ha
        rw [ho]
        exact Except.ok.inj ha
      refine (seen_tell_own ho).trans ?_
      rw [ho,hk]
      simp only [Spans.hook,entering]
      rw [← ho,hgiven,List.append_nil]
    · exact seen_tell_other ho

/-- Entering a node that is given a span. -/
theorem opened_spanned (hk : w.hook hook = Spans.hook longest deepest) (hd : v.depth = t.depth)
    (ha : (w.hook v.hook).answer t.calls (entering c v.hook v.name i t.depth) = .ok v.span)
    {span : Nat} (hv : v.spanOf hook = some span) :
    span = (t.spans longest hook).started ∧
      (t.opened w c v.hook v.name i).spans longest hook =
        ⟨(t.spans longest hook).started + 1,span :: (t.spans longest hook).stack⟩ ∧
      (t.opened w c v.hook v.name i).seen hook = t.seen hook ++
        Spans.opening span (t.spans longest hook).stack.head? v.name i v.depth := by
  obtain ⟨ho,hspan⟩ := Visit.spanOf_eq_some hv
  have hcalls := calls_asked_of_ok hd ha
  have hgiven : (Spans.ofCalls longest hook t.calls).given deepest t.depth = some span := by
    rw [ho,hk,hspan] at ha
    exact Except.ok.inj ha
  refine ⟨?_,?_,?_⟩
  · unfold Spans.given at hgiven
    split at hgiven
    · cases hgiven
    · exact (Option.some.inj hgiven).symm
  · rw [spans,opened,hcalls,Spans.ofCalls_cons_own ho,Spans.after]
    simp only [Visit.call,hspan]
    rfl
  · refine (seen_tell_own ho).trans ?_
    rw [ho,hk]
    simp only [Spans.hook,entering,hgiven]
    rw [hd]
    rfl

theorem closed_quiet (hk : w.hook hook = Spans.hook longest deepest) (hv : v.spanOf hook = none) :
    (t.closed w v (ending.happening c i v.depth)).spans longest hook = t.spans longest hook ∧
      (t.closed w v (ending.happening c i v.depth)).seen hook = t.seen hook := by
  constructor
  · rw [spans,calls_closed]
    exact Spans.ofCalls_cons_quiet (Visit.spanOf_eq_none hv) _
  · by_cases ho : v.hook = hook
    · refine (seen_tell_own ho).trans ?_
      rw [ho,hk]
      have hspan := Visit.spanOf_eq_none hv ho
      cases ending <;> simp [Spans.hook,Visit.call,Ending.happening,hspan]
    · exact seen_tell_other ho

/-- Closing a node ends the innermost span, if it has a text for the error it is told of. -/
theorem closed_spanned (hk : w.hook hook = Spans.hook longest deepest) {span : Nat}
    (hv : v.spanOf hook = some span)
    (htext : ∀ fault duration, ending = .failed fault duration →
      fault.told longest = .ok fault.message) :
    (t.closed w v (ending.happening c i v.depth)).spans longest hook =
        { t.spans longest hook with stack := (t.spans longest hook).stack.tail } ∧
      (t.closed w v (ending.happening c i v.depth)).seen hook = t.seen hook ++ ending.events span := by
  obtain ⟨ho,hspan⟩ := Visit.spanOf_eq_some hv
  constructor
  · rw [spans,calls_closed,Spans.ofCalls_cons_own ho,Spans.after]
    cases ending with
    | left o duration =>
      simp only [Visit.call,hspan,Ending.happening]
      rfl
    | failed fault duration =>
      simp only [Visit.call,hspan,Ending.happening,htext fault duration rfl]
      rfl
  · refine (seen_tell_own ho).trans ?_
    rw [ho,hk]
    cases ending with
    | left o duration =>
      simp only [Spans.hook,Visit.call,hspan,Ending.happening]
      rfl
    | failed fault duration =>
      simp only [Spans.hook,Visit.call,hspan,Ending.happening,Spans.failing,htext fault duration rfl]
      rfl

end Visits

/-- From one point to another a hook that opens spans made of a forest what belongs to it: its new
spans have the next numbers in order, and those that are open are as before. -/
structure Grew (longest : Option Nat) (hook : HookId) (forest : List TraceTree) (t u : Tracing) :
    Prop where
  seen : u.seen hook = t.seen hook ++ eventsAll hook (t.spans longest hook).stack.head? forest
  stack : (u.spans longest hook).stack = (t.spans longest hook).stack
  fresh : ∃ n, (u.spans longest hook).started = (t.spans longest hook).started + n ∧
    (eventsAll hook (t.spans longest hook).stack.head? forest).filterMap Event.started? =
      List.range' (t.spans longest hook).started n

namespace Grew

variable {w : World} {longest : Option Nat} {deepest : Option Int} {hook : HookId} {t u u' : Tracing}
  {ts us inner : List TraceTree} {v : Visit} {c : Context} {i : Int} {ending : Ending}

theorem refl : Grew longest hook [] t t := ⟨(List.append_nil _).symm,rfl,0,rfl,rfl⟩

theorem append (h : Grew longest hook ts t u) (h' : Grew longest hook us u u') :
    Grew longest hook (ts ++ us) t u' := by
  obtain ⟨n,hn,hstarted⟩ := h.fresh
  obtain ⟨m,hm,hstarted'⟩ := h'.fresh
  have hseen' := h'.seen
  rw [h.stack] at hseen' hstarted'
  refine ⟨?_,h'.stack.trans h.stack,n + m,?_,?_⟩
  · rw [hseen',h.seen,eventsAll_append,List.append_assoc]
  · rw [hm,hn,Nat.add_assoc]
  · rw [eventsAll_append,List.filterMap_append,hstarted,hstarted',hn,List.range'_append_1]

/-- Two points that are the same for a hook at both ends. -/
theorem within {a b : Tracing} (h : Grew longest hook ts t u)
    (ht : t.spans longest hook = a.spans longest hook ∧ t.seen hook = a.seen hook)
    (hu : b.spans longest hook = u.spans longest hook ∧ b.seen hook = u.seen hook) :
    Grew longest hook ts a b := by
  obtain ⟨n,hn,hstarted⟩ := h.fresh
  have hseen := h.seen
  have hstack := h.stack
  rw [ht.1] at hseen hn hstarted hstack
  rw [ht.2] at hseen
  exact ⟨hu.2.trans hseen,by rw [hu.1,hstack],n,by rw [hu.1,hn],hstarted⟩

/-- A forest counts as well for a node around it that has no span of the hook. -/
theorem of_eventsAll_eq {ts' : List TraceTree} (h : Grew longest hook ts t u)
    (he : ∀ parent, eventsAll hook parent ts' = eventsAll hook parent ts) :
    Grew longest hook ts' t u := by
  obtain ⟨n,hn,hstarted⟩ := h.fresh
  exact ⟨by rw [he,h.seen],h.stack,n,hn,by rw [he,hstarted]⟩

/-- A node that has a span has those inside it in between. -/
theorem node (hk : w.hook hook = Spans.hook longest deepest) (hd : v.depth = t.depth)
    (ha : (w.hook v.hook).answer t.calls (Hooks.entering c v.hook v.name i t.depth) = .ok v.span)
    {span : Nat} (hv : v.spanOf hook = some span)
    (htext : ∀ fault duration, ending = .failed fault duration →
      fault.told longest = .ok fault.message)
    (h : Grew longest hook inner (t.opened w c v.hook v.name i) u) :
    Grew longest hook [.node v c i inner ending] t (u.closed w v (ending.happening c i v.depth)) := by
  obtain ⟨hnext,hspans,hseen⟩ := opened_spanned hk hd ha hv
  obtain ⟨hspans',hseen'⟩ := closed_spanned (t := u) (c := c) (i := i) hk hv htext
  obtain ⟨n,hn,hstarted⟩ := h.fresh
  have hinner := h.seen
  have hstack := h.stack
  rw [hspans] at hinner hn hstarted hstack
  have hevents : eventsAll hook (t.spans longest hook).stack.head? [.node v c i inner ending] =
      Spans.opening span (t.spans longest hook).stack.head? v.name i v.depth ++
        (eventsAll hook (some span) inner ++ ending.events span) := by
    rw [eventsAll,eventsAll,List.append_nil,events,hv]
  refine ⟨?_,?_,n + 1,?_,?_⟩
  · rw [hseen',hinner,hseen,hevents,List.append_assoc,List.append_assoc]
    rfl
  · rw [hspans',hstack]
    rfl
  · rw [hspans',hn]
    exact Nat.add_right_comm ..
  · rw [hevents,List.filterMap_append,List.filterMap_append,Ending.started_events,List.append_nil]
    exact (congrArg (span :: ·) hstarted).trans (hnext ▸ rfl)

end Grew

end Tracing

namespace TraceTree

variable {w : World} {longest : Option Nat} {deepest : Option Int} {hook : HookId} {escapes : Bool}
  {t u : Tracing} {ts : List TraceTree}

/-- A hook that opens spans gives one to exactly those of its nodes that are not too deep, and
refuses none. -/
theorem Traced.spanned (hk : w.hook hook = Spans.hook longest deepest)
    (h : Traced w escapes t ts u) : ∀ x ∈ ts, x.Spanned hook deepest t.depth := by
  have hgiven {t : Tracing} {v : Visit} {c : Context} {i : Int} (hd : v.depth = t.depth)
      (ha : (w.hook v.hook).answer t.calls (Hooks.entering c v.hook v.name i t.depth) = .ok v.span)
      (ho : v.hook = hook) : v.span.isSome = true ↔ ∀ m ∈ deepest, (v.depth : Int) ≤ m := by
    rw [ho,hk] at ha
    have hspan : (Spans.ofCalls longest hook t.calls).given deepest t.depth = v.span :=
      Except.ok.inj ha
    rw [← hspan,Spans.given,hd]
    cases deepest with
    | none => simp
    | some m =>
      by_cases hm : m < (t.depth : Int)
      · simp [hm]
      · simp [hm,Int.not_lt.mp hm]
  induction h with
  | nil => simp
  | refused hd hs ha _ ih =>
    refine List.forall_mem_cons.mpr ⟨?_,ih⟩
    rw [← hd]
    refine .refused fun ho => ?_
    rw [ho,hk] at ha
    cases ha
  | node hd ha _ _ _ ihinner ih =>
    refine List.forall_mem_cons.mpr ⟨?_,hd ▸ ih⟩
    rw [← hd]
    exact .node (hgiven hd ha) (hd ▸ ihinner)
  | abandoned hd ha _ ihinner =>
    refine List.forall_mem_singleton.mpr ?_
    rw [← hd]
    exact .abandoned (hgiven hd ha) (hd ▸ ihinner)

/-- Where it is told how its nodes end, a hook that opens spans makes of a forest what belongs to
it. -/
theorem Traced.grew (hk : w.hook hook = Spans.hook longest deepest) (h : Traced w escapes t ts u)
    (hc : ∀ x ∈ ts, x.Closes longest hook) : Tracing.Grew longest hook ts t u := by
  induction h with
  | nil => exact .refl
  | @refused _ t _ v c i _ _ hd hs ha _ ih =>
    have ho : v.hook ≠ hook := by
      intro ho
      rw [ho,hk] at ha
      cases ha
    have hrest := ih fun x hx => hc x (List.mem_cons_of_mem _ hx)
    refine (hrest.within ⟨?_,Tracing.seen_tell_other ho⟩ ⟨rfl,rfl⟩).of_eventsAll_eq fun parent => rfl
    rw [Tracing.spans,Tracing.calls_asked_of_error hd hs ha]
    exact Spans.ofCalls_cons_quiet (fun hown => absurd hown ho) _
  | @node _ t u _ v c i ending inner rest hd ha _ _ _ ihinner ih =>
    obtain ⟨hnode,hrest⟩ := List.forall_mem_cons.mp hc
    obtain ⟨htext,hcinner⟩ : _ ∧ _ := by
      cases hnode with
      | node htext hcinner => exact ⟨htext,hcinner⟩
    refine Tracing.Grew.append (?_ : Tracing.Grew longest hook [_] _ _) (ih hrest)
    cases hv : v.spanOf hook with
    | some span => exact .node hk hd ha hv (fun f d => htext f d (hv ▸ rfl)) (ihinner hcinner)
    | none =>
      refine ((ihinner hcinner).within (Tracing.opened_quiet hk hd ha hv)
        (Tracing.closed_quiet hk hv)).of_eventsAll_eq fun parent => ?_
      rw [eventsAll,eventsAll,List.append_nil,events,hv]
  | @abandoned t u v c i inner hd ha _ ihinner =>
    obtain ⟨hv,hcinner⟩ : _ ∧ _ := by
      cases List.forall_mem_singleton.mp hc with
      | abandoned hv hcinner => exact ⟨hv,hcinner⟩
    refine ((ihinner hcinner).within (b := u.left v) (Tracing.opened_quiet hk hd ha hv)
      ⟨rfl,rfl⟩).of_eventsAll_eq fun parent => ?_
    rw [eventsAll,eventsAll,List.append_nil,events,hv]

/-- A hook is told how every node ended where nothing but errors is raised. -/
theorem Traced.closes (htext : ∀ fault : Fault, fault.told longest = .ok fault.message)
    (h : Traced w escapes t ts u) (he : escapes = false) : ∀ x ∈ ts, x.Closes longest hook := by
  induction h with
  | nil => simp
  | refused _ _ _ _ ih => exact List.forall_mem_cons.mpr ⟨.refused,ih he⟩
  | node _ _ _ _ _ ihinner ih =>
    exact List.forall_mem_cons.mpr ⟨.node (fun fault _ _ _ => htext fault) (ihinner rfl),ih he⟩
  | abandoned => cases he

end TraceTree

namespace Outline

open Rules

theorem onMemory_sections (w : World) (n : Nat) (seen : List RuleId) (waiting : List Reference) :
    OnMemory (sections w n seen waiting) := by
  induction n generalizing seen waiting with
  | zero =>
    cases waiting with
    | nil => exact .done _
    | cons x waiting =>
      intro s s' h
      rw [sections,Run.exhaust_apply,Run.exhaust_apply,← h]
  | succ n ih =>
    cases waiting with
    | nil => exact .done _
    | cons x waiting =>
      rw [sections]
      split
      · exact ih seen waiting
      · exact (OnMemory.body x.1).bind fun body => (ih _ _).bind fun rest => .done _

theorem untold_explain (w : World) (limit : Nat) (p : Parser) (expand : Bool) :
    Untold (explain w limit p expand) := by
  have hsections := onMemory_sections w limit [] (rulesIn p)
  cases expand with
  | true => exact (hsections.bind fun more => .done _).untold
  | false => exact fun _ => rfl

end Outline

namespace Grammar

variable {w : World}

/-- A deed ends, if it is a parse. -/
def Deed.Ends (w : World) (s : State) : Deed → Prop
  | use (.parse limit p t i hook config) =>
    (Parsing.parse w limit p t i hook config s).1 ≠ .exhausted
  | _ => True

/-- A deed raises nothing but errors, if it is a parse. -/
def Deed.Errs (w : World) (s : State) : Deed → Prop
  | use (.parse limit p t i hook config) =>
    (Parsing.parse w limit p t i hook config s).1.escapes = false
  | _ => True

/-- Every deed of a session has a property where it is performed. -/
def Deed.Along (w : World) (P : State → Deed → Prop) : State → List Deed → Prop
  | _, [] => True
  | s, x :: xs => P s x ∧ Along w P (x.perform w s) xs

instance {α : Type} : (a : Answer α) → Decidable (a = .exhausted)
  | .value _ | .raised _ => .isFalse nofun
  | .exhausted => .isTrue rfl

instance (w : World) (s : State) : (x : Deed) → Decidable (x.Ends w s)
  | .use (.parse ..) => inferInstanceAs (Decidable (_ ≠ _))
  | .use (.unit ..) | .write _ | .equal .. | .explain .. | .ambient .. => .isTrue trivial

instance (w : World) (s : State) : (x : Deed) → Decidable (x.Errs w s)
  | .use (.parse ..) => inferInstanceAs (Decidable (_ = _))
  | .use (.unit ..) | .write _ | .equal .. | .explain .. | .ambient .. => .isTrue trivial

instance Deed.decidableAlong (w : World) (P : State → Deed → Prop) [∀ s x, Decidable (P s x)] :
    (s : State) → (xs : List Deed) → Decidable (Along w P s xs)
  | _, [] => .isTrue trivial
  | s, x :: xs =>
    have := decidableAlong w P (x.perform w s) xs
    inferInstanceAs (Decidable (_ ∧ _))

/-- What is traced in a session, one parse after another; nothing else traces anything. -/
inductive Deed.Traced (w : World) : State → List Deed → List TraceTree → Prop
  | nil {s : State} : Traced w s [] []
  | quiet {s : State} {x : Deed} {xs : List Deed} {forest : List TraceTree} :
    (x.perform w s).tracing = s.tracing → Traced w (x.perform w s) xs forest →
      Traced w s (x :: xs) forest
  | parse {s : State} {limit : Nat} {p : Parser} {t : Text} {i : Int} {hook : Option HookId}
    {config : Option Config} {xs : List Deed} {ts us : List TraceTree} {r : Answer Outcome × State} :
    Parsing.parse w limit p t i hook config s = r →
      TraceTree.Traced w r.1.escapes (s.setDepth 0).tracing ts r.2.tracing → Traced w r.2 xs us →
        Traced w s (.use (.parse limit p t i hook config) :: xs) (ts ++ us)

namespace Deed.Traced

variable {xs : List Deed} {s : State} {forest : List TraceTree}

theorem of_ends (h : Along w (Ends w) s xs) : ∃ forest, Traced w s xs forest := by
  induction xs generalizing s with
  | nil => exact ⟨[],.nil⟩
  | cons x xs ih =>
    obtain ⟨hends,hrest⟩ := h
    obtain ⟨us,hus⟩ := ih hrest
    cases x with
    | use x =>
      cases x with
      | unit limit p => exact ⟨us,.quiet ((Rules.OnMemory.isUnit limit p).untold s) hus⟩
      | parse limit p t i own config =>
        obtain ⟨ts,hts⟩ := Parsing.run_traces (w := w)
          ⟨t,own.or s.ambientHook,config.or s.ambientConfig⟩ limit p i (s.setDepth 0) hends
        exact ⟨ts ++ us,.parse rfl hts hus⟩
    | write | equal | ambient => exact ⟨us,.quiet rfl hus⟩
    | explain limit p expand => exact ⟨us,.quiet (Outline.untold_explain w limit p expand s) hus⟩

theorem calls (h : Traced w s xs forest) : (xs.foldl (Deed.perform w) s).tracing.calls =
    (TraceTree.callsAll forest).reverse ++ s.tracing.calls := by
  induction h with
  | nil => rfl
  | quiet hx _ ih => rw [List.foldl_cons,ih,hx]
  | parse hr hts _ ih =>
    subst hr
    rw [List.foldl_cons,TraceTree.callsAll_append,List.reverse_append,List.append_assoc]
    exact ih.trans (congrArg _ hts.calls)

variable {longest : Option Nat} {deepest : Option Int} {hook : HookId}

theorem spanned (hk : w.hook hook = Spans.hook longest deepest) (h : Traced w s xs forest) :
    ∀ t ∈ forest, t.Spanned hook deepest 0 := by
  induction h with
  | nil => simp
  | quiet _ _ ih => exact ih
  | parse _ hts _ ih => exact List.forall_mem_append.mpr ⟨hts.spanned hk,ih⟩

theorem grew (hk : w.hook hook = Spans.hook longest deepest) (h : Traced w s xs forest)
    (hc : ∀ t ∈ forest, t.Closes longest hook) :
    Tracing.Grew longest hook forest s.tracing (xs.foldl (Deed.perform w) s).tracing := by
  induction h with
  | nil => exact .refl
  | quiet hx _ ih => exact hx ▸ ih hc
  | @parse s _ _ _ _ _ _ _ _ _ _ hr hts _ ih =>
    subst hr
    obtain ⟨hcts,hcus⟩ := List.forall_mem_append.mp hc
    -- counting the open nodes from zero is nothing to the hook
    exact ((hts.grew hk hcts).within (a := s.tracing) ⟨rfl,rfl⟩ ⟨rfl,rfl⟩).append (ih hcus)

theorem closes (htext : ∀ fault : Fault, fault.told longest = .ok fault.message)
    (h : Traced w s xs forest) (he : Along w (Errs w) s xs) :
    ∀ t ∈ forest, t.Closes longest hook := by
  induction h with
  | nil => simp
  | quiet _ _ ih => exact ih he.2
  | parse hr hts _ ih =>
    subst hr
    exact List.forall_mem_append.mpr ⟨hts.closes htext he.1,ih he.2⟩

end Deed.Traced

/-- Logs around a function that raises; the second one reports to a hook of its own. -/
def loggedTower : Parser := .log (.statement 0) aside "out".toList none
where
  word : Parser := .word (.statement 5) "a".toList
  boom : Parser := .map (.statement 4) word (fun _ => .error .boom) "boom".toList
  deep : Parser := .log (.statement 3) boom "deep".toList none
  within : Parser := .log (.statement 2) deep "in".toList none
  aside : Parser := .log (.statement 1) within "aside".toList (some (.numbered 1))

/-- A log around a function that raises something. -/
def loggedRaise (fault : Fault) : Parser :=
  .log (.statement 0) (.map (.statement 1) (.word (.statement 2) "a".toList) (fun _ => .error fault)
    "raise".toList) "x".toList none

end Grammar
end Peg
