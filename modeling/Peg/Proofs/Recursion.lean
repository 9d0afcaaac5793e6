import Mathlib.Data.Fintype.Card
import Mathlib.Data.Set.Finite.Basic
import Peg.Proofs.Calls

/-! Left recursion.
A rule recurs to another one when its body can come to that one before anything has to be consumed.
Which parsers may succeed without consuming can be told from their trees, and so can the rules that
a parser comes to.  Main statement: an order of the rules, checked so, is never gone up in
recursion. -/
namespace Peg

open Relation

namespace Terminal

/-- Whether a terminal may succeed without consuming, as far as it shows. -/
def mayBeEmpty : Terminal → Bool
  | start | finish | pass | compound _ | regex .. => true
  | fail | char _ | oneOf _ | satisfying .. => false
  | literal word => word.isEmpty
  | runOf _ least => least = 0

theorem mayBeEmpty_of_scan {s : Terminal} {t : Text} {i : Int} (h : s.scan t i = .ok (some i)) :
    s.mayBeEmpty = true := by
  cases s with
  | start | finish | pass | compound | regex => rfl
  | fail => cases h
  | char | oneOf | satisfying =>
    have := (of_scanOne h).1
    omega
  | literal word =>
    simp only [scan,Except.ok.injEq] at h
    split at h
    · have hi : i + word.length = i := Option.some.inj h
      exact List.isEmpty_iff_length_eq_zero.mpr (by omega)
    · cases h
  | runOf chars least =>
    change scanRun t i chars least = _ at h
    unfold scanRun at h
    split at h
    · cases h
    · dsimp only at h
      split at h
      · have hi := Option.some.inj (Except.ok.inj h)
        exact decide_eq_true (by omega)
      · cases h

end Terminal

namespace Parser

section Empty

variable (rule : RuleId → Bool)

mutual
/-- Whether a parser may succeed without consuming, as far as its tree shows, when that is known of
the rules. -/
def mayBeEmpty : Parser → Bool
  | terminal _ s => s.mayBeEmpty
  | seq _ ps => allMayBeEmpty ps
  | choice ps => someMayBeEmpty ps
  | rep _ element least _ separator =>
    least.toNat = 0 || mayBeEmpty element && (least.toNat ≤ 1 || mayBeEmpty separator)
  | opt _ | not _ => true
  | cut body | map _ body .. | flatMap _ body .. | filter _ body .. | capture body | log _ body .. =>
    mayBeEmpty body
  | .rule r _ => rule r

def allMayBeEmpty : List Parser → Bool
  | [] => true
  | p :: ps => mayBeEmpty p && allMayBeEmpty ps

def someMayBeEmpty : List Parser → Bool
  | [] => false
  | p :: ps => mayBeEmpty p || someMayBeEmpty ps
end

variable {rule}

theorem allMayBeEmpty_of_forall {ps : List Parser} (h : ∀ p ∈ ps, p.mayBeEmpty rule = true) :
    allMayBeEmpty rule ps = true := by
  induction ps with
  | nil => rfl
  | cons p ps ih =>
    rw [allMayBeEmpty,h p (by simp),ih fun q hq => h q (by simp [hq])]
    rfl

theorem someMayBeEmpty_of_mem {ps : List Parser} {p : Parser} (hp : p ∈ ps)
    (h : p.mayBeEmpty rule = true) : someMayBeEmpty rule ps = true := by
  induction ps with
  | nil => cases hp
  | cons q ps ih =>
    rw [someMayBeEmpty,Bool.or_eq_true]
    rcases List.mem_cons.mp hp with rfl | hp
    · exact .inl h
    · exact .inr (ih hp)

/-- What the tree shows is never too little. -/
theorem conservative_mayBeEmpty (rule : RuleId → Bool) :
    Conservative fun p => p.mayBeEmpty rule = true where
  terminal := Terminal.mayBeEmpty_of_scan
  seq := allMayBeEmpty_of_forall
  choice := someMayBeEmpty_of_mem
  rep h := by simpa [mayBeEmpty] using h
  opt := rfl
  not := rfl
  cut h := h
  map h := h
  flatMap h _ _ := h
  filter h := h
  capture h := h
  log h := h

end Empty

section Starts

variable (empty rule : RuleId → Bool)

mutual
/-- Whether all rules pass that a parser can come to before anything has to be consumed, as far as
its tree shows; what a flat map goes on with does not show. -/
def startsWith : Parser → Bool
  | terminal .. => true
  | seq _ ps => allStartWith ps
  | choice ps => eachStartsWith ps
  | rep _ element _ _ separator =>
    startsWith element && (!element.mayBeEmpty empty || startsWith separator)
  | opt body | not body | cut body | map _ body .. | filter _ body .. | capture body
  | log _ body .. => startsWith body
  | flatMap _ body .. => startsWith body && !body.mayBeEmpty empty
  | .rule r _ => rule r

/-- The same of parts that are run one after another. -/
def allStartWith : List Parser → Bool
  | [] => true
  | p :: ps => startsWith p && (!p.mayBeEmpty empty || allStartWith ps)

/-- The same of branches. -/
def eachStartsWith : List Parser → Bool
  | [] => true
  | p :: ps => startsWith p && eachStartsWith ps
end

variable {empty rule}

theorem startsWith_part {before after : List Parser} {q : Parser}
    (h : allStartWith empty rule (before ++ q :: after) = true)
    (hb : ∀ x ∈ before, x.mayBeEmpty empty = true) : q.startsWith empty rule = true := by
  induction before with
  | nil => exact (Bool.and_eq_true_iff.mp h).1
  | cons p before ih =>
    have hrest := (Bool.and_eq_true_iff.mp h).2
    rw [hb p (by simp)] at hrest
    exact ih hrest fun x hx => hb x (by simp [hx])

theorem startsWith_branch {branches : List Parser} {q : Parser}
    (h : eachStartsWith empty rule branches = true) (hq : q ∈ branches) :
    q.startsWith empty rule = true := by
  induction branches with
  | nil => cases hq
  | cons p ps ih =>
    obtain ⟨hp,hps⟩ := Bool.and_eq_true_iff.mp h
    rcases List.mem_cons.mp hq with rfl | hq
    · exact hp
    · exact ih hps hq

theorem Enters.startsWith {p q : Parser} (hq : p.Enters (fun p => p.mayBeEmpty empty = true) q)
    (h : p.startsWith empty rule = true) : q.startsWith empty rule = true := by
  cases hq with
  | part hb => exact startsWith_part h hb
  | branch hq => exact startsWith_branch h hq
  | element => exact (Bool.and_eq_true_iff.mp h).1
  | separator he =>
    have hs := (Bool.and_eq_true_iff.mp h).2
    rwa [he] at hs
  | next he =>
    have hb := (Bool.and_eq_true_iff.mp h).2
    rw [he] at hb
    cases hb
  | body hc =>
    cases p with
    | terminal | rule | rep => cases hc
    | seq id ps =>
      obtain rfl : ps = [q] := hc
      have hall : allStartWith empty rule ([] ++ q :: []) = true := h
      exact startsWith_part hall (by simp)
    | choice ps => exact startsWith_branch h (by rw [show ps = [q] from hc]; simp)
    | flatMap id body =>
      obtain ⟨rfl,-⟩ := List.cons.inj hc
      exact (Bool.and_eq_true_iff.mp h).1
    | opt | not | cut | map | filter | capture | log =>
      obtain ⟨rfl,-⟩ := List.cons.inj hc
      exact h

/-- A rule that a parser comes to before anything has to be consumed passes. -/
theorem startsWith_rule {p : Parser} {r : RuleId} {name : Text}
    (hr : ReflTransGen (Enters fun p => p.mayBeEmpty empty = true) p (.rule r name))
    (h : p.startsWith empty rule = true) : rule r = true := by
  induction hr using ReflTransGen.head_induction_on with
  | refl => exact h
  | head hq _ ih => exact ih (hq.startsWith h)

end Starts

end Parser

namespace Grammar

variable {G : Grammar} {empty : Parser → Prop} {p q : Parser} {r s : RuleId}

/-- An analysis of which parsers over a grammar may succeed without consuming: of a rule it says at
least what it says of its body. -/
structure Conservative (G : Grammar) (empty : Parser → Prop) : Prop
    extends Parser.Conservative empty where
  rule {r : RuleId} {name : Text} : r ∈ G.rules → empty (G.body r) → empty (.rule r name)

/-- The body of the second rule can come to the first rule before anything has to be consumed. -/
def Recurs (G : Grammar) (empty : Parser → Prop) (s r : RuleId) : Prop :=
  r ∈ G.rules ∧ ∃ name, ReflTransGen (Parser.Enters empty) (G.body r) (.rule s name)

theorem Has.entered (h : G.Has p) (hq : ReflTransGen (Parser.Enters empty) p q) : G.Has q := by
  induction hq with
  | refl => exact h
  | tail _ hq ih => exact ih.down hq.down

theorem Recurs.mem_rules (h : G.Recurs empty s r) : s ∈ G.rules := by
  obtain ⟨hr,name,hs⟩ := h
  have hbody : G.Has (G.body r) := G.closed r hr
  exact (hbody.entered hs).mem_rules

theorem wellFounded_of_rank (rank : RuleId → Nat)
    (h : ∀ r ∈ G.rules, ∀ s name, ReflTransGen (Parser.Enters empty) (G.body r) (.rule s name) →
      rank s < rank r) : WellFounded (G.Recurs empty) :=
  Subrelation.wf (fun ⟨hr,name,hs⟩ => h _ hr _ name hs) (measure rank).wf

/-- Among finitely many rules nothing goes on for ever that never comes back. -/
theorem wellFounded_of_acyclic (h : ∀ r ∈ G.rules, ¬ TransGen (G.Recurs empty) r r) :
    WellFounded (G.Recurs empty) := by
  let below (a b : {r // r ∈ G.rules}) : Prop := TransGen (G.Recurs empty) a.1 b.1
  have : Finite {r // r ∈ G.rules} := G.rules.finite_toSet
  have : IsTrans _ below := ⟨fun _ _ _ => .trans⟩
  have : Std.Irrefl below := ⟨fun a => h a.1 a.2⟩
  have hwf : WellFounded below := Finite.wellFounded_of_trans_of_irrefl below
  have hrules (a : {r // r ∈ G.rules}) : Acc (G.Recurs empty) a.1 := by
    induction a using hwf.induction with
    | h a ih => exact .intro _ fun s hs => ih ⟨s,hs.mem_rules⟩ (.single hs)
  refine ⟨fun r => .intro r fun s hs => hrules ⟨s,hs.mem_rules⟩⟩

/-- The analysis by trees, over a grammar. -/
theorem conservative_mayBeEmpty {rule : RuleId → Bool}
    (h : ∀ r ∈ G.rules, (G.body r).mayBeEmpty rule = true → rule r = true) :
    G.Conservative fun p => p.mayBeEmpty rule = true where
  toConservative := Parser.conservative_mayBeEmpty rule
  rule hr hbody := h _ hr hbody

/-- An order of the rules that the trees of their bodies show. -/
theorem rank_of_startsWith {rule : RuleId → Bool} {rank : RuleId → Nat}
    (h : ∀ r ∈ G.rules, (G.body r).startsWith rule (fun s => rank s < rank r) = true) (r : RuleId)
    (hr : r ∈ G.rules) (s : RuleId) (name : Text)
    (hs : ReflTransGen (Parser.Enters fun p => p.mayBeEmpty rule = true) (G.body r)
      (.rule s name)) : rank s < rank r :=
  of_decide_eq_true (Parser.startsWith_rule hs (h r hr))

end Grammar
end Peg
