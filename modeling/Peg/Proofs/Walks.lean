import Mathlib.Algebra.GroupWithZero.Nat
import Peg.Proofs.Sections

/-! Walks over grammars.
A walk keeps the nodes that wait on a stack: in each round it takes the one on top, notes something
down and puts other nodes on the stack, where siblings of many levels lie together.  Main statement:
the outline is the listing that recursion gives, a line for every node and then what stands below it,
one level deeper; the rules that are met are those that recursion mentions, from left to right; and
a walk with a stack ends with these and with nothing else. -/
namespace Peg

open Relation

namespace Parser

open Outline (line)

mutual
/-- The line of a parser, then the listings of what stands below it, each a level deeper; nothing
stands below a negation or a rule. -/
def listing (p : Parser) (depth : Nat) : List Text :=
  line p depth ::
    match p with
    | seq _ parts => allListings parts (depth + 1)
    | choice branches => allListings branches (depth + 1)
    | rep _ body .. | opt body | cut body | map _ body .. | flatMap _ body .. | filter _ body ..
    | capture body | log _ body .. => listing body (depth + 1)
    | terminal .. | not _ | rule .. => []

def allListings : List Parser → Nat → List Text
  | [], _ => []
  | p :: ps, depth => listing p depth ++ allListings ps depth
end

theorem allListings_eq (ps : List Parser) (depth : Nat) :
    allListings ps depth = ps.flatMap (listing · depth) := by
  induction ps with
  | nil => rfl
  | cons p ps ih => rw [allListings,ih,List.flatMap_cons]

theorem listing_eq (p : Parser) (depth : Nat) :
    p.listing depth = line p depth :: p.outlined.flatMap (listing · (depth + 1)) := by
  cases p <;> simp [listing,outlined,allListings_eq]

theorem sizes_eq_sum (ps : List Parser) : sizes ps = (ps.map size).sum := by
  induction ps with
  | nil => rfl
  | cons p ps ih => rw [sizes,ih,List.map_cons,List.sum_cons]

end Parser

namespace Outline

open Peg.Parser

/-- How far a walk has got: what it has noted down, and the nodes that wait on its stack, whose top is
the end of the list. -/
structure Walk (ν ω : Type) where
  found : List ω
  stack : List ν

namespace Walk

variable {ν ω : Type} {visit : ν → List ω × List ν} {recursion : ν → List ω} {size : ν → Nat}
  {s t : Walk ν ω} {x : ν} {found : List ω}

/-- One round of a walk: the node on top is visited, which says what is noted down and which nodes
are put on the stack, one after another. -/
inductive Round (visit : ν → List ω × List ν) : Walk ν ω → Walk ν ω → Prop
  | visited (found : List ω) (stack : List ν) (x : ν) :
    Round visit ⟨found,stack ++ [x]⟩ ⟨found ++ (visit x).1,stack ++ (visit x).2⟩

/-- A walk from one node has found some things when its stack is empty. -/
def Finds (visit : ν → List ω × List ν) (x : ν) (found : List ω) : Prop :=
  ReflTransGen (Round visit) ⟨[],[x]⟩ ⟨found,[]⟩

/-- At every node the recursion has what is noted down there, and then itself for the nodes that are
put on the stack, from the top downwards. -/
def Unrolls (visit : ν → List ω × List ν) (recursion : ν → List ω) : Prop :=
  ∀ x, recursion x = (visit x).1 ++ (visit x).2.reverse.flatMap recursion

/-- What will have been found in the end: what there is already, and what the recursion has for the
nodes that wait, from the top of the stack downwards. -/
def outcome (recursion : ν → List ω) (s : Walk ν ω) : List ω :=
  s.found ++ s.stack.reverse.flatMap recursion

theorem Round.outcome_eq (hr : Unrolls visit recursion) (h : Round visit s t) :
    t.outcome recursion = s.outcome recursion := by
  obtain ⟨found,stack,x⟩ := h
  calc found ++ (visit x).1 ++ (stack ++ (visit x).2).reverse.flatMap recursion
    _ = found ++ ((visit x).1 ++ (visit x).2.reverse.flatMap recursion)
        ++ stack.reverse.flatMap recursion := by simp
    _ = found ++ recursion x ++ stack.reverse.flatMap recursion := by rw [← hr x]
    _ = found ++ (stack ++ [x]).reverse.flatMap recursion := by simp

theorem outcome_eq_of_rounds (hr : Unrolls visit recursion) (h : ReflTransGen (Round visit) s t) :
    t.outcome recursion = s.outcome recursion := by
  induction h with
  | refl => rfl
  | tail _ hround ih => exact (hround.outcome_eq hr).trans ih

/-- If the nodes that are put on the stack are smaller together than the one that is taken off, then
the stack gets empty. -/
theorem exists_end (hsize : ∀ x, ((visit x).2.map size).sum < size x) (s : Walk ν ω) :
    ∃ found, ReflTransGen (Round visit) s ⟨found,[]⟩ := by
  -- the stack can grow, and so the induction is on the size of all the nodes that wait
  induction hn : (s.stack.map size).sum using Nat.strong_induction_on generalizing s with
  | _ n ih =>
    obtain ⟨found,stack⟩ := s
    rcases List.eq_nil_or_concat stack with rfl | ⟨stack,x,rfl⟩
    · exact ⟨found,.refl⟩
    · rw [List.concat_eq_append] at hn ⊢
      have hless : ((stack ++ (visit x).2).map size).sum < n := by
        rw [← hn]
        simpa using hsize x
      obtain ⟨rest,hrest⟩ := ih _ hless ⟨found ++ (visit x).1,stack ++ (visit x).2⟩ rfl
      exact ⟨rest,.head (.visited found stack x) hrest⟩

/-- A walk finds what the recursion has, and nothing else. -/
theorem finds_iff (hr : Unrolls visit recursion)
    (hsize : ∀ x, ((visit x).2.map size).sum < size x) :
    Finds visit x found ↔ found = recursion x := by
  have hfound {found : List ω} (h : Finds visit x found) : found = recursion x := by
    simpa [outcome] using outcome_eq_of_rounds hr h
  refine ⟨hfound,?_⟩
  rintro rfl
  obtain ⟨found,h⟩ := exists_end hsize (⟨[],[x]⟩ : Walk ν ω)
  exact hfound h ▸ h

end Walk

/-- The outline notes down the line of a node and puts what stands below it on the stack, the last
of them first. -/
def outlining : Parser × Nat → List Text × List (Parser × Nat)
  | (p,depth) => ([line p depth],(p.outlined.map (·,depth + 1)).reverse)

/-- The search for rules notes down the rules, and puts the children of every other node on the
stack, the last of them first, and so a separator before its element. -/
def searching : Parser → List Reference × List Parser
  | .rule r name => ([(r,name)],[])
  | .seq _ parts => ([],parts.reverse)
  | .choice branches => ([],branches.reverse)
  | .rep _ body _ _ separator => ([],[separator,body])
  | .opt body | .not body | .cut body | .map _ body .. | .flatMap _ body .. | .filter _ body ..
  | .capture body | .log _ body .. => ([],[body])
  | .terminal .. => ([],[])

theorem unrolls_outlining : Walk.Unrolls outlining fun x => x.1.listing x.2 := by
  rintro ⟨p,depth⟩
  simp only [outlining,List.reverse_reverse,List.flatMap_map]
  exact listing_eq p depth

theorem unrolls_searching : Walk.Unrolls searching mentions := by
  intro p
  cases p <;> simp [searching,mentions,allMentions_eq]

theorem size_outlining (x : Parser × Nat) :
    ((outlining x).2.map fun y => y.1.size).sum < x.1.size := by
  obtain ⟨p,depth⟩ := x
  have hsize := p.sizes_outlined_lt
  rw [sizes_eq_sum] at hsize
  simpa [outlining,List.sum_reverse,Function.comp_def] using hsize

theorem searching_stack (p : Parser) : (searching p).2 = p.children.reverse := by
  cases p <;> rfl

theorem size_searching (p : Parser) : ((searching p).2.map Parser.size).sum < p.size := by
  rw [searching_stack,List.map_reverse,List.sum_reverse,← sizes_eq_sum]
  exact p.sizes_children_lt

theorem linesOf_eq (ws : Waiting) : linesOf ws = ws.flatMap fun x => x.1.listing x.2 := by
  induction ws using linesOf.induct with
  | case1 => rw [linesOf,List.flatMap_nil]
  | case2 p depth ws ih =>
    rw [linesOf,ih,List.flatMap_append,List.flatMap_map,List.flatMap_cons,listing_eq]
    rfl

/-- The outline of a parser at some depth is its listing by recursion, and its rules are those that
it mentions by recursion; with a stack of the nodes that wait, a walk for the one and for the other
comes to an end, and always with these. -/
theorem walks_agree_with_recursion (p : Parser) (depth : Nat) :
    (lines p depth = p.listing depth ∧
      ∀ found, Walk.Finds outlining (p,depth) found ↔ found = p.listing depth) ∧
    (rulesIn p = p.mentions ∧ ∀ found, Walk.Finds searching p found ↔ found = p.mentions) := by
  refine ⟨⟨?_,fun found => ?_⟩,rulesIn_eq p,fun found => ?_⟩
  · rw [lines,linesOf_eq,List.flatMap_singleton]
  · exact Walk.finds_iff unrolls_outlining size_outlining
  · exact Walk.finds_iff unrolls_searching size_searching

/-- A negation is written out on its line, and the rules below it are met all the same. -/
example :
    let p : Parser := .rep (.named "list") (.not (.rule (.named "end") "end".toList)) (.whole 0) none
      (.rule (.named "gap") "gap".toList)
    lines p 1 = ["  • REPEAT (any number of times, separated by gap):".toList,
      "    • NOT: end".toList] ∧
    rulesIn p = [(.named "end","end".toList),(.named "gap","gap".toList)] := by
  decide +kernel

end Outline
end Peg
