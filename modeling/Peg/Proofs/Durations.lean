import Mathlib.Algebra.Order.Field.Rat
import Mathlib.Order.Monotone.Basic
import Mathlib.Tactic.Linarith
import Mathlib.Tactic.Ring
import Peg.Proofs.Depths
import Peg.Proofs.Forests

/-! How long traced nodes take.
The clock is read once when a node is entered and once when it is closed, and in between for the
nodes inside it; for a node that its hook keeps from running it is not read.  Main statement: by a
clock that does not go back no node takes less time than the nodes directly inside it together, and
by one that moves on evenly a node takes as long as the number of nodes inside it says. -/
namespace Peg

/-- The duration that is told when a node is closed. -/
def Happening.duration? : Happening → Option Rat
  | entered .. => none
  | left _ _ _ duration _ => some duration
  | failed _ duration => some duration

namespace TraceTree

/-- The duration that a node reports; one that is not closed reports none. -/
def duration : TraceTree → Rat
  | node _ _ _ _ ending => ending.duration
  | refused .. | abandoned .. => 0

/-- What stands directly inside a node. -/
def inner : TraceTree → List TraceTree
  | refused .. => []
  | node _ _ _ inner _ | abandoned _ _ _ inner => inner

mutual
/-- The nodes that are closed: the node itself, if it is, and those inside it. -/
def nodes : TraceTree → List TraceTree
  | refused .. => []
  | node v c i inner ending => node v c i inner ending :: nodesAll inner
  | abandoned _ _ _ inner => nodesAll inner

def nodesAll : List TraceTree → List TraceTree
  | [] => []
  | t :: ts => nodes t ++ nodesAll ts
end

section Nodes

variable (v : Visit) (c : Context) (i : Int) (inner ts : List TraceTree)

@[simp] theorem nodesAll_nil : nodesAll [] = [] := by rw [nodesAll]

@[simp] theorem nodesAll_refused : nodesAll (refused v c i :: ts) = nodesAll ts := by
  rw [nodesAll,nodes,List.nil_append]

@[simp] theorem nodesAll_node (ending : Ending) : nodesAll (node v c i inner ending :: ts) =
    node v c i inner ending :: (nodesAll inner ++ nodesAll ts) := by
  rw [nodesAll,nodes,List.cons_append]

@[simp] theorem nodesAll_abandoned :
    nodesAll (abandoned v c i inner :: ts) = nodesAll inner ++ nodesAll ts := by
  rw [nodesAll,nodes]

end Nodes

namespace Traced

variable {w : World} {escapes : Bool} {t u : Tracing} {ts : List TraceTree}

/-- Every node read the clock twice, where none is abandoned. -/
theorem readings (h : Traced w false t ts u) : u.readings = t.readings + 2 * (nodesAll ts).length := by
  generalize hfalse : false = e at h
  induction h with
  | nil => simp
  | refused _ _ _ _ ih =>
    rw [nodesAll_refused]
    exact ih hfalse
  | @node _ t u _ _ _ _ _ _ _ _ _ _ _ _ ihinner ih =>
    have hinner : u.readings = t.readings + 1 + 2 * _ := ihinner rfl
    have hrest : _ = u.readings + 1 + 2 * _ := ih hfalse
    simp only [nodesAll_node,List.length_cons,List.length_append]
    omega
  | abandoned => cases hfalse

/-- A node that is closed took the time from one reading to another one, and all that is inside it
read the clock between the two. -/
theorem of_mem_nodesAll (h : Traced w escapes t ts u) {x : TraceTree} (hx : x ∈ nodesAll ts) :
    ∃ (n : Nat) (t' u' : Tracing), t'.readings = n + 1 ∧ Traced w false t' x.inner u' ∧
      x.duration = (w.clock u'.readings - w.clock n) * 1000 := by
  induction h with
  | nil => simp at hx
  | refused _ _ _ _ ih => exact ih (by simpa using hx)
  | node _ _ hinner hduration _ ihinner ih =>
    rw [nodesAll_node,List.mem_cons,List.mem_append] at hx
    rcases hx with rfl | hx | hx
    · exact ⟨_,_,_,rfl,hinner,hduration⟩
    · exact ihinner hx
    · exact ih hx
  | abandoned _ _ _ ih => exact ih (by simpa using hx)

/-- By a clock that does not go back nodes one after another take no longer than the time between
the readings around them. -/
theorem sum_le (h : Traced w false t ts u) (hc : Monotone w.clock) :
    (ts.map duration).sum ≤ (w.clock u.readings - w.clock t.readings) * 1000 := by
  generalize hfalse : false = e at h
  induction h with
  | nil => simp
  | refused _ _ _ _ ih =>
    rw [List.map_cons,List.sum_cons,duration,zero_add]
    exact ih hfalse
  | @node _ t u t' _ _ _ _ _ _ _ _ _ hduration _ _ ih =>
    have hrest : _ ≤ (w.clock t'.readings - w.clock (u.readings + 1)) * 1000 := ih hfalse
    have hnext : w.clock u.readings ≤ w.clock (u.readings + 1) := hc (Nat.le_succ _)
    rw [List.map_cons,List.sum_cons,duration,hduration]
    linarith
  | abandoned => cases hfalse

theorem le_duration (h : Traced w escapes t ts u) (hc : Monotone w.clock) {x : TraceTree}
    (hx : x ∈ nodesAll ts) : 0 ≤ x.duration ∧ (x.inner.map duration).sum ≤ x.duration := by
  obtain ⟨n,t',u',hn,hinner,hduration⟩ := h.of_mem_nodesAll hx
  have hsum := hinner.sum_le hc
  have hreadings := hinner.readings
  have hstart : w.clock n ≤ w.clock t'.readings := hc (by omega)
  have hend : w.clock t'.readings ≤ w.clock u'.readings := hc (by omega)
  rw [hduration]
  constructor <;> linarith

/-- By a clock that moves on evenly every reading counts the same. -/
theorem duration_eq (h : Traced w escapes t ts u) {step : Rat}
    (hc : ∀ n, w.clock (n + 1) = w.clock n + step) {x : TraceTree} (hx : x ∈ nodesAll ts) :
    x.duration = 1000 * step * (1 + 2 * (nodesAll x.inner).length) := by
  have hclock (a b : Nat) : w.clock (a + b) = w.clock a + b * step := by
    induction b with
    | zero => simp
    | succ b ih =>
      rw [← Nat.add_assoc,hc,ih,Nat.cast_succ]
      ring
  obtain ⟨n,t',u',hn,hinner,hduration⟩ := h.of_mem_nodesAll hx
  have hreadings : u'.readings = n + (1 + 2 * (nodesAll x.inner).length) := by
    have := hinner.readings
    omega
  rw [hduration,hreadings,hclock]
  push_cast
  ring

end Traced
end TraceTree

namespace Parsing

open TraceTree

/-- What a parse that ends has traced is a forest.  By a clock that does not go back no node of it
that was closed took less than no time, and none took less than the nodes directly inside it
together; and by a clock that moves on evenly each took the time of one step, and of two more for
every node inside it, however deep and whatever hook it reports to. -/
theorem parse_durations {w : World} {limit : Nat} {p : Parser} {t : Text} {i : Int}
    {hook : Option HookId} {config : Option Config} {s : State}
    (h : (parse w limit p t i hook config s).1 ≠ .exhausted) :
    let r := parse w limit p t i hook config s
    ∃ forest, Traced w r.1.escapes (s.setDepth 0).tracing forest r.2.tracing ∧
      r.2.tracing.calls = (callsAll forest).reverse ++ s.tracing.calls ∧
      ((∀ n, w.clock n ≤ w.clock (n + 1)) → ∀ x ∈ nodesAll forest,
        0 ≤ x.duration ∧ (x.inner.map duration).sum ≤ x.duration) ∧
      ∀ step, (∀ n, w.clock (n + 1) = w.clock n + step) → ∀ x ∈ nodesAll forest,
        x.duration = 1000 * step * (1 + 2 * (nodesAll x.inner).length) := by
  intro r
  obtain ⟨forest,hforest⟩ := run_traces (w := w)
    ⟨t,hook.or s.ambientHook,config.or s.ambientConfig⟩ limit p i (s.setDepth 0) h
  refine ⟨forest,hforest,hforest.calls,fun hc x hx => ?_,fun step hc x hx => ?_⟩
  · exact hforest.le_duration (monotone_nat_of_le_succ hc) hx
  · exact hforest.duration_eq hc hx

/-- Two logs under different hooks, by a clock that moves on by one second at each reading. -/
theorem parse_durations_of_loggedApart :
    let w : World := { twoHooks none none with clock := fun n => n }
    let r := parse w 9 loggedApart "a".toList 0 none none {}
    r.1 ≠ .exhausted ∧ (∀ n, w.clock n ≤ w.clock (n + 1)) ∧ (∀ n, w.clock (n + 1) = w.clock n + 1) ∧
      ∃ forest, r.2.tracing.calls = (callsAll forest).reverse ∧
        ∀ x ∈ nodesAll forest, 0 ≤ x.duration ∧ (x.inner.map duration).sum ≤ x.duration ∧
          x.duration = 1000 * (1 + 2 * (nodesAll x.inner).length) := by
  intro w r
  have hends : r.1 ≠ .exhausted := by
    have hr : r.1 = .value (.success .none 1 false) := rfl
    rw [hr]
    nofun
  have hstep : ∀ n, w.clock (n + 1) = w.clock n + 1 := fun n => Nat.cast_succ n
  have hmono : ∀ n, w.clock n ≤ w.clock (n + 1) := by
    intro n
    rw [hstep]
    linarith
  obtain ⟨forest,-,hcalls,hnest,hcount⟩ := parse_durations
    (show (parse w 9 loggedApart "a".toList 0 none none {}).1 ≠ .exhausted from hends)
  refine ⟨hends,hmono,hstep,forest,hcalls.trans (List.append_nil _),fun x hx => ?_⟩
  obtain ⟨hnonneg,hsum⟩ := hnest hmono x hx
  have hduration := hcount 1 hstep x hx
  rw [mul_one] at hduration
  exact ⟨hnonneg,hsum,hduration⟩

/-- For a node that its hook keeps from running the clock is not read, although it is told of: the
log around it took the time of one step, and not of three. -/
theorem refused_takes_no_time :
    let w : World := { twoHooks none (some .enter) with clock := fun n => n }
    let r := parse w 9 loggedApart "a".toList 0 none none {}
    (∀ n, w.clock (n + 1) = w.clock n + 1) ∧
      r.2.tracing.calls.reverse.map (fun call => (call.name,call.depth,call.happening.duration?)) =
        [("out".toList,0,none),("in".toList,1,none),("out".toList,0,some 1000)] ∧
      (1000 : Rat) ≠ 1000 * 1 * (1 + 2 * 1) :=
  ⟨fun n => Nat.cast_succ n,by decide +kernel,by norm_num⟩

end Parsing
end Peg
