import Peg.Proofs.Loops

/-! Questions step by step, and side by side.
The body of a rule and the answer for it are given by one equation for each way to come to them.  A
relation between computations that composing keeps, and that relates looking at what is
remembered and keeping an answer, is kept by asking one part after another.  Main statement: it is
kept by asking about a node when it is kept by asking about the nodes below it. -/
namespace Peg.Rules

section Equations

variable {w : World} {r : RuleId} {s : State}

theorem body_known {p : Parser} (h : (s.memory.cell r).body = some p) : body w r s = (.value p,s) := by
  simp only [body,h]

theorem body_supplied {p : Parser} (h : (s.memory.cell r).body = none)
    (hp : w.supply r (s.memory.cell r).calls = .ok p) :
    body w r s = (.value p,s.mapMemory (·.setCell r
      { s.memory.cell r with calls := (s.memory.cell r).calls + 1, body := some p })) := by
  simp only [body,h,hp]

theorem body_refused {fault : Fault} (h : (s.memory.cell r).body = none)
    (hf : w.supply r (s.memory.cell r).calls = .error fault) :
    body w r s = (.raised fault,s.mapMemory (·.setCell r
      { s.memory.cell r with calls := (s.memory.cell r).calls + 1 })) := by
  simp only [body,h,hf]

variable {unit : Parser → Run Bool}

theorem resolve_known {u : Bool} (h : (s.memory.cell r).unit = some u) :
    resolve w unit r s = (.value u,s) := by
  simp only [resolve,h]

theorem resolve_guessed {low : Nat} (h : (s.memory.cell r).unit = none)
    (hlow : Memory.placeOf r s.memory.resolving = some low) :
    resolve w unit r s = (.value true,
      s.mapMemory fun m => { m with resolving := Memory.relyOn low m.resolving }) := by
  simp only [resolve,h,hlow]

variable {t : State}

theorem resolve_answered {u : Bool} (h : (s.memory.cell r).unit = none)
    (hnew : Memory.placeOf r s.memory.resolving = none)
    (hx : (body w r >>= unit) (s.mapMemory (·.enter r)) = (.value u,t)) :
    resolve w unit r s = (.value u,t.mapMemory (·.settle r u)) := by
  simp only [resolve,h,hnew,hx]

theorem resolve_raised {fault : Fault} (h : (s.memory.cell r).unit = none)
    (hnew : Memory.placeOf r s.memory.resolving = none)
    (hx : (body w r >>= unit) (s.mapMemory (·.enter r)) = (.raised fault,t)) :
    resolve w unit r s = (.raised fault,t.mapMemory Memory.leave) := by
  simp only [resolve,h,hnew,hx]

theorem resolve_exhausted (h : (s.memory.cell r).unit = none)
    (hnew : Memory.placeOf r s.memory.resolving = none)
    (hx : (body w r >>= unit) (s.mapMemory (·.enter r)) = (.exhausted,t)) :
    resolve w unit r s = (.exhausted,t.mapMemory Memory.leave) := by
  simp only [resolve,h,hnew,hx]

end Equations

/-- A relation between computations that composing keeps, and what a question does by itself. -/
structure Asking (R : (α : Type) → Run α → Run α → Prop) : Prop extends Parsing.Congruence R where
  known (id : Ident) : R _ (Run.get (·.memory.shape id)) (Run.get (·.memory.shape id))
  pending : R _ (Run.get (·.memory.resolving)) (Run.get (·.memory.resolving))
  keep (id : Ident) (units : List Bool) : R _ (Run.modify (·.mapMemory (·.setShape id units)))
    (Run.modify (·.mapMemory (·.setShape id units)))

namespace Asking

variable {R : (α : Type) → Run α → Run α → Prop} {unit unit' : Parser → Run Bool}

theorem eachUnit (hR : Asking R) {ps : List Parser} (h : ∀ p ∈ ps, R _ (unit p) (unit' p)) :
    R _ (eachUnit unit ps) (eachUnit unit' ps) := by
  induction ps with
  | nil => exact hR.done _
  | cons p ps ih =>
    obtain ⟨hp,hps⟩ := List.forall_mem_cons.mp h
    exact hR.bind hp fun _ => hR.bind (ih hps) fun _ => hR.done _

theorem allUnit (hR : Asking R) {ps : List Parser} (h : ∀ p ∈ ps, R _ (unit p) (unit' p)) :
    R _ (allUnit unit ps) (allUnit unit' ps) := by
  induction ps with
  | nil => exact hR.done _
  | cons p ps ih =>
    obtain ⟨hp,hps⟩ := List.forall_mem_cons.mp h
    refine hR.bind hp fun u => ?_
    cases u with
    | true => exact ih hps
    | false => exact hR.done _

theorem shape (hR : Asking R) (id : Ident) {ps : List Parser}
    (h : ∀ p ∈ ps, R _ (unit p) (unit' p)) : R _ (shape unit id ps) (shape unit' id ps) := by
  refine hR.bind (hR.known id) fun known => ?_
  cases known with
  | some us => exact hR.done _
  | none =>
    refine hR.bind (hR.eachUnit h) fun us => hR.bind hR.pending fun frames => ?_
    cases frames with
    | nil => exact hR.bind (hR.keep id us) fun _ => hR.done _
    | cons f fs => exact hR.done _

/-- Asking about a node is kept when asking about the nodes below it is, and when the answers for
rules are. -/
theorem isUnit (hR : Asking R) {w w' : World} {n m : Nat} (p : Parser)
    (hc : ∀ q ∈ p.children, R _ (isUnit w n q) (isUnit w' m q))
    (hr : ∀ r name, p = .rule r name →
      R _ (resolve w (isUnit w n) r) (resolve w' (isUnit w' m) r)) :
    R _ (Rules.isUnit w (n + 1) p) (Rules.isUnit w' (m + 1) p) := by
  rw [isUnit.eq_def,isUnit.eq_def]
  cases p with
  | terminal | not | map | flatMap | capture => exact hR.done _
  | seq id parts => exact hR.bind (hR.shape id hc) fun _ => hR.done _
  | choice branches => exact hR.allUnit hc
  | rep | opt | cut | filter | log => exact hc _ (by simp [Parser.children])
  | rule r name => exact hr r name rfl

end Asking
end Peg.Rules
