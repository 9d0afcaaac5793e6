import Mathlib.Data.Finset.Card
import Mathlib.Data.Finset.Dedup
import Peg.Proofs.Supplies

/-! Outlines with the bodies of rules.
Rules wait for their sections in one queue, in which a rule can stand more than once, and the bodies
can lead back to rules that have theirs.  Main statement: the outline ends, with one section for
each rule that can be reached, and the sections come level by level in the order of first mention. -/
namespace Peg

open Relation

namespace Parser

open Outline (Reference)

mutual
/-- The rules that a parser mentions, from left to right and an element before its separator. -/
def mentions : Parser → List Reference
  | rule r name => [(r,name)]
  | seq _ parts => allMentions parts
  | choice branches => allMentions branches
  | rep _ body _ _ separator => mentions body ++ mentions separator
  | opt body | not body | cut body | map _ body .. | flatMap _ body .. | filter _ body ..
  | capture body | log _ body .. => mentions body
  | terminal .. => []

def allMentions : List Parser → List Reference
  | [] => []
  | p :: ps => mentions p ++ allMentions ps
end

theorem allMentions_eq (ps : List Parser) : allMentions ps = ps.flatMap mentions := by
  induction ps with
  | nil => rfl
  | cons p ps ih => rw [allMentions,ih,List.flatMap_cons]

theorem mentions_eq {p : Parser} (hp : ∀ r name, p ≠ .rule r name) :
    p.mentions = p.children.flatMap mentions := by
  cases p with
  | rule r name => exact absurd rfl (hp r name)
  | _ => simp [mentions,children,allMentions_eq]

/-- One step down in a parser, or from a rule to its body. -/
inductive Opens (body : RuleId → Parser) : Parser → Parser → Prop
  | child {p q : Parser} : q ∈ p.children → Opens body p q
  | body {r : RuleId} {name : Text} : Opens body (.rule r name) (body r)

end Parser

namespace Outline

open Peg.Parser

/-- The rules that some references are to. -/
def targets (xs : List Reference) : Finset RuleId := (xs.map Prod.fst).toFinset

/-- The first reference to each rule that was not seen before. -/
def firsts (seen : Finset RuleId) : List Reference → List Reference
  | [] => []
  | x :: xs => if x.1 ∈ seen then firsts seen xs else x :: firsts (insert x.1 seen) xs

/-- What the bodies of some rules mention, one body after another. -/
def beneath (body : RuleId → Parser) (xs : List Reference) : List Reference :=
  xs.flatMap fun x => (body x.1).mentions

/-- Some references and what lies below them, level by level. -/
def levels (body : RuleId → Parser) : Nat → List Reference → List Reference
  | 0, _ => []
  | n + 1, xs => xs ++ levels body n (beneath body xs)

/-- A blank line, the name of a rule and the outline of its body. -/
def sectionOf (body : RuleId → Parser) (x : Reference) : List Text :=
  [] :: (x.2 ++ " :=".toList) :: lines (body x.1) 1

/-- The references that are given sections, in turn, while some wait and some rules were seen. -/
inductive Sectioned (body : RuleId → Parser) :
    Finset RuleId → List Reference → List Reference → Prop
  | done {seen : Finset RuleId} : Sectioned body seen [] []
  | again {seen : Finset RuleId} {x : Reference} {waiting found : List Reference} :
    x.1 ∈ seen → Sectioned body seen waiting found → Sectioned body seen (x :: waiting) found
  | first {seen : Finset RuleId} {x : Reference} {waiting found : List Reference} :
    x.1 ∉ seen → Sectioned body (insert x.1 seen) (waiting ++ (body x.1).mentions) found →
      Sectioned body seen (x :: waiting) (x :: found)

section Firsts

variable {seen known : Finset RuleId} {xs ys : List Reference} {x : Reference} {r : RuleId}

@[simp] theorem mem_targets : r ∈ targets xs ↔ ∃ x ∈ xs, x.1 = r := by simp [targets]

@[simp] theorem targets_nil : targets [] = ∅ := rfl

@[simp] theorem targets_cons : targets (x :: xs) = insert x.1 (targets xs) := by simp [targets]

theorem targets_cons_union (x : Reference) (xs : List Reference) (seen : Finset RuleId) :
    targets (x :: xs) ∪ seen = targets xs ∪ insert x.1 seen := by
  rw [targets_cons,Finset.insert_union,Finset.union_insert]

theorem targets_cons_union_of_mem (hx : x.1 ∈ seen) :
    targets (x :: xs) ∪ seen = targets xs ∪ seen := by
  rw [targets_cons_union,Finset.insert_eq_self.mpr hx]

theorem firsts_append (seen : Finset RuleId) (xs ys : List Reference) :
    firsts seen (xs ++ ys) = firsts seen xs ++ firsts (targets xs ∪ seen) ys := by
  induction xs generalizing seen with
  | nil => simp [firsts]
  | cons x xs ih =>
    by_cases hx : x.1 ∈ seen
    · simp only [List.cons_append,firsts,if_pos hx,ih,targets_cons_union_of_mem hx]
    · simp only [List.cons_append,firsts,if_neg hx,ih,targets_cons_union]

/-- References to rules that were all seen before do not count. -/
theorem firsts_eq_nil (h : ∀ x ∈ xs, x.1 ∈ seen) : firsts seen xs = [] := by
  induction xs with
  | nil => rfl
  | cons x xs ih =>
    obtain ⟨hx,hxs⟩ := List.forall_mem_cons.mp h
    rw [firsts,if_pos hx,ih hxs]

theorem firsts_subset (seen : Finset RuleId) (xs : List Reference) : firsts seen xs ⊆ xs := by
  induction xs generalizing seen with
  | nil => exact List.Subset.refl _
  | cons x xs ih =>
    rw [firsts]
    split
    · exact List.subset_cons_of_subset x (ih seen)
    · exact List.cons_subset_cons x (ih _)

theorem targets_firsts (seen : Finset RuleId) (xs : List Reference) :
    targets (firsts seen xs) = targets xs \ seen := by
  induction xs generalizing seen with
  | nil => simp [firsts]
  | cons x xs ih =>
    rw [firsts]
    split
    · next hx => rw [ih,targets_cons,Finset.insert_sdiff_of_mem _ hx]
    · next hx =>
      rw [targets_cons,ih,targets_cons,Finset.insert_sdiff_of_notMem _ hx]
      ext r
      simp only [Finset.mem_insert,Finset.mem_sdiff]
      tauto

theorem nodup_firsts (seen : Finset RuleId) (xs : List Reference) :
    ((firsts seen xs).map Prod.fst).Nodup := by
  induction xs generalizing seen with
  | nil => exact List.nodup_nil
  | cons x xs ih =>
    rw [firsts]
    split
    · exact ih seen
    · rw [List.map_cons,List.nodup_cons]
      refine ⟨fun hx => ?_,ih _⟩
      have hmem : x.1 ∈ targets (firsts (insert x.1 seen) xs) := List.mem_toFinset.mpr hx
      rw [targets_firsts] at hmem
      exact (Finset.mem_sdiff.mp hmem).2 (Finset.mem_insert_self _ _)

/-- Below the rules that are known there is nothing new, and so only the first references count for
what there is below. -/
theorem firsts_beneath {body : RuleId → Parser}
    (h : ∀ r ∈ known, ∀ y ∈ (body r).mentions, y.1 ∈ seen) (xs : List Reference) :
    firsts seen (beneath body xs) = firsts seen (beneath body (firsts known xs)) := by
  induction xs generalizing known seen with
  | nil => rfl
  | cons x xs ih =>
    have hcons (ys : List Reference) :
        beneath body (x :: ys) = (body x.1).mentions ++ beneath body ys := List.flatMap_cons
    by_cases hx : x.1 ∈ known
    · have hseen : targets (body x.1).mentions ∪ seen = seen := by
        refine Finset.union_eq_right.mpr fun r hr => ?_
        obtain ⟨y,hy,rfl⟩ := mem_targets.mp hr
        exact h x.1 hx y hy
      rw [hcons,firsts_append,firsts_eq_nil (h x.1 hx),hseen,List.nil_append,ih h,firsts,if_pos hx]
    · rw [firsts,if_neg hx,hcons,hcons,firsts_append,firsts_append]
      congr 1
      refine ih fun r hr y hy => ?_
      rcases Finset.mem_insert.mp hr with rfl | hr
      · exact Finset.mem_union_left _ (mem_targets.mpr ⟨y,hy,rfl⟩)
      · exact Finset.mem_union_right _ (h r hr y hy)

end Firsts

section Reaching

variable {body : RuleId → Parser} {p q : Parser} {xs ys : List Reference} {x : Reference}

theorem rulesOf_eq (ps : List Parser) : rulesOf ps = ps.flatMap mentions := by
  induction ps using rulesOf.induct with
  | case1 => rw [rulesOf,List.flatMap_nil]
  | case2 r name ps ih => rw [rulesOf,ih,List.flatMap_cons,mentions,List.singleton_append]
  | case3 p ps hne ih =>
    rw [rulesOf]
    · rw [ih,List.flatMap_append,List.flatMap_cons,mentions_eq hne]
    · exact hne

theorem rulesIn_eq (p : Parser) : rulesIn p = p.mentions := by
  rw [rulesIn,rulesOf_eq,List.flatMap_singleton]

/-- What a parser mentions stands below it. -/
theorem opens_of_mem_mentions (hx : x ∈ p.mentions) :
    ReflTransGen (Opens body) p (.rule x.1 x.2) := by
  rw [← rulesIn_eq] at hx
  obtain ⟨q,hq,hpath⟩ := below_of_mem_rulesOf hx
  obtain rfl := List.mem_singleton.mp hq
  exact ReflTransGen.mono (fun _ _ h => .child h) _ _ hpath

theorem mentions_subset_of_mem_children (hq : q ∈ p.children) : q.mentions ⊆ p.mentions := by
  intro x hx
  have hp (r : RuleId) (name : Text) : p ≠ .rule r name := by
    rintro rfl
    cases hq
  rw [mentions_eq hp]
  exact List.mem_flatMap.mpr ⟨q,hq,hx⟩

theorem levels_mono (n : Nat) (h : xs ⊆ ys) : levels body n xs ⊆ levels body n ys := by
  induction n generalizing xs ys with
  | zero => exact List.Subset.refl _
  | succ n ih =>
    have hbeneath : beneath body xs ⊆ beneath body ys := fun x hx => by
      obtain ⟨y,hy,hx⟩ := List.mem_flatMap.mp hx
      exact List.mem_flatMap.mpr ⟨y,h hy,hx⟩
    exact List.append_subset.mpr ⟨List.subset_append_of_subset_left _ h,
      List.subset_append_of_subset_right _ (ih hbeneath)⟩

theorem levels_subset {n m : Nat} (h : n ≤ m) (xs : List Reference) :
    levels body n xs ⊆ levels body m xs := by
  induction n generalizing m xs with
  | zero => exact List.nil_subset _
  | succ n ih =>
    obtain ⟨m,rfl⟩ : ∃ k, m = k + 1 := ⟨m - 1,by omega⟩
    exact List.append_subset.mpr ⟨List.subset_append_left _ _,
      List.subset_append_of_subset_right _ (ih (by omega) _)⟩

theorem opens_of_mem_levels {n : Nat} (h : ∀ x ∈ xs, ReflTransGen (Opens body) p (.rule x.1 x.2))
    (hx : x ∈ levels body n xs) : ReflTransGen (Opens body) p (.rule x.1 x.2) := by
  induction n generalizing xs with
  | zero => cases hx
  | succ n ih =>
    rcases List.mem_append.mp hx with hx | hx
    · exact h x hx
    · refine ih (fun y hy => ?_) hx
      obtain ⟨z,hz,hy⟩ := List.mem_flatMap.mp hy
      exact ((h z hz).tail .body).trans (opens_of_mem_mentions hy)

/-- A rule that can be reached stands at some level. -/
theorem exists_mem_levels (h : ReflTransGen (Opens body) p (.rule x.1 x.2)) :
    ∃ n, x ∈ levels body n p.mentions := by
  induction h using ReflTransGen.head_induction_on with
  | refl => exact ⟨1,by simp [levels,mentions]⟩
  | head hpq _ ih =>
    obtain ⟨n,hn⟩ := ih
    cases hpq with
    | child hq => exact ⟨n,levels_mono n (mentions_subset_of_mem_children hq) hn⟩
    | body => exact ⟨n + 1,by simp [levels,mentions,beneath,hn]⟩

/-- Rules whose bodies mention only each other are all that can be reached from where only they are
mentioned. -/
theorem mem_of_opens {rules : Finset RuleId} (hp : targets p.mentions ⊆ rules)
    (hrules : ∀ r ∈ rules, targets (body r).mentions ⊆ rules) {r : RuleId} {name : Text}
    (h : ReflTransGen (Opens body) p (.rule r name)) : r ∈ rules := by
  obtain ⟨n,hn⟩ := exists_mem_levels (x := (r,name)) h
  have hlevels (n : Nat) (xs : List Reference) (hxs : targets xs ⊆ rules)
      (hx : (r,name) ∈ levels body n xs) : r ∈ rules := by
    induction n generalizing xs with
    | zero => cases hx
    | succ n ih =>
      rcases List.mem_append.mp hx with hx | hx
      · exact hxs (mem_targets.mpr ⟨_,hx,rfl⟩)
      · refine ih _ (fun t ht => ?_) hx
        obtain ⟨y,hy,rfl⟩ := mem_targets.mp ht
        obtain ⟨z,hz,hy⟩ := List.mem_flatMap.mp hy
        exact hrules z.1 (hxs (mem_targets.mpr ⟨z,hz,rfl⟩)) (mem_targets.mpr ⟨y,hy,rfl⟩)
  exact hlevels n _ hp hn

end Reaching

namespace Sectioned

variable {body : RuleId → Parser} {p : Parser} {seen : Finset RuleId}
  {now later waiting found : List Reference}

/-- If only so many rules can be reached, the queue runs empty: with each first reference fewer rules
are left that were not seen, and with every other one the queue gets shorter. -/
theorem exists_found {rules : Finset RuleId}
    (hrules : ∀ r name, ReflTransGen (Opens body) p (.rule r name) → r ∈ rules)
    (seen : Finset RuleId) (waiting : List Reference)
    (h : ∀ x ∈ waiting, ReflTransGen (Opens body) p (.rule x.1 x.2)) :
    ∃ found, Sectioned body seen waiting found := by
  cases waiting with
  | nil => exact ⟨[],.done⟩
  | cons x waiting =>
    obtain ⟨hx,hwaiting⟩ := List.forall_mem_cons.mp h
    by_cases hseen : x.1 ∈ seen
    · obtain ⟨found,hfound⟩ := exists_found hrules seen waiting hwaiting
      exact ⟨found,.again hseen hfound⟩
    · have hfewer : (rules \ insert x.1 seen).card < (rules \ seen).card := by
        refine Finset.card_lt_card (Finset.ssubset_iff_of_subset ?_ |>.mpr ⟨x.1,?_,?_⟩)
        · exact Finset.sdiff_subset_sdiff (Finset.Subset.refl _) (Finset.subset_insert _ _)
        · exact Finset.mem_sdiff.mpr ⟨hrules x.1 x.2 hx,hseen⟩
        · exact fun hmem => (Finset.mem_sdiff.mp hmem).2 (Finset.mem_insert_self _ _)
      obtain ⟨found,hfound⟩ := exists_found hrules (insert x.1 seen)
        (waiting ++ (body x.1).mentions) fun y hy => by
          rcases List.mem_append.mp hy with hy | hy
          · exact hwaiting y hy
          · exact (hx.tail .body).trans (opens_of_mem_mentions hy)
      exact ⟨x :: found,.first hseen hfound⟩
termination_by ((rules \ seen).card,waiting.length)

/-- What waits at the front has its turn before anything that it brings in. -/
theorem round (h : Sectioned body seen (now ++ later) found) :
    ∃ rest, found = firsts seen now ++ rest ∧
      Sectioned body (targets now ∪ seen) (later ++ beneath body (firsts seen now)) rest := by
  induction now generalizing seen later found with
  | nil => exact ⟨found,rfl,by simpa [firsts,beneath] using h⟩
  | cons x now ih =>
    cases h with
    | again hx h =>
      obtain ⟨rest,rfl,hrest⟩ := ih h
      rw [firsts,if_pos hx,targets_cons_union_of_mem hx]
      exact ⟨rest,rfl,hrest⟩
    | first hx h =>
      rw [List.append_eq,List.append_assoc] at h
      obtain ⟨rest,rfl,hrest⟩ := ih h
      rw [List.append_assoc] at hrest
      rw [firsts,if_neg hx,targets_cons_union]
      exact ⟨rest,rfl,hrest⟩

/-- The sections come level by level if what the rules that were seen mention waits or was seen. -/
theorem eq_firsts (h : Sectioned body seen waiting found) {xs : List Reference}
    (hxs : firsts seen xs = firsts seen waiting)
    (hseen : ∀ r ∈ seen, ∀ y ∈ (body r).mentions, y.1 ∈ targets waiting ∪ seen) {n : Nat}
    (hn : found.length ≤ n) : firsts seen (levels body n xs) = found := by
  -- a level holds more references than the queue, where seen rules mention nothing again
  induction n generalizing seen waiting found xs with
  | zero => rw [List.eq_nil_of_length_eq_zero (Nat.le_zero.mp hn),levels,firsts]
  | succ n ih =>
    have hqueue : Sectioned body seen (waiting ++ []) found := by rwa [List.append_nil]
    obtain ⟨rest,rfl,hrest⟩ := hqueue.round
    rw [List.nil_append] at hrest
    have htargets : targets xs ∪ seen = targets waiting ∪ seen := by
      rw [← Finset.sdiff_union_self_eq_union,← targets_firsts,hxs,targets_firsts,
        Finset.sdiff_union_self_eq_union]
    have hlength : rest.length ≤ n := by
      rw [List.length_append] at hn
      rcases hf : firsts seen waiting with _ | ⟨x,fs⟩
      · rw [hf] at hrest
        cases hrest
        exact Nat.zero_le n
      · rw [hf,List.length_cons] at hn
        omega
    rw [levels,firsts_append,hxs,htargets]
    congr 1
    refine ih hrest ?_ (fun r hr y hy => ?_) hlength
    · rw [firsts_beneath hseen,hxs]
    · by_cases hr' : r ∈ seen
      · exact Finset.mem_union_right _ (hseen r hr' y hy)
      · have hfirst : r ∈ targets (firsts seen waiting) := by
          rw [targets_firsts]
          exact Finset.mem_sdiff.mpr ⟨(Finset.mem_union.mp hr).resolve_right hr',hr'⟩
        obtain ⟨x,hx,rfl⟩ := mem_targets.mp hfirst
        exact Finset.mem_union_left _ (mem_targets.mpr ⟨y,List.mem_flatMap.mpr ⟨x,hx,hy⟩,rfl⟩)

end Sectioned
end Outline

/-- Nothing is known of a rule yet, or a certain body. -/
def RuleCell.Trusts (c : RuleCell) (q : Parser) : Prop :=
  c.body = none ∧ c.calls = 0 ∨ c.body = some q

section Trusts

variable {w : World} {m m' : Memory} {r r' : RuleId} {c c' : RuleCell} {q : Parser} {fault : Fault}

theorem World.Learns.trusts (h : w.Learns r c c') (hq : w.supply r 0 = .ok q) (hc : c.Trusts q) :
    c'.Trusts q := by
  cases h with
  | stays hcalls hbody =>
    rw [RuleCell.Trusts,hcalls,hbody]
    exact hc
  | builds hnone hp _ hbody =>
    rcases hc with ⟨-,hcalls⟩ | hsome
    · rw [hcalls,hq] at hp
      exact .inr (hbody.trans (congrArg some (Except.ok.inj hp).symm))
    · rw [hnone] at hsome
      cases hsome

/-- A supplier that gives a body at once is not one that refuses. -/
theorem Memory.Stopped.trusts (h : m.Stopped w r' fault m') (hq : w.supply r 0 = .ok q)
    (hm : (m.cell r).Trusts q) : (m'.cell r).Trusts q := by
  by_cases hr : r = r'
  · subst hr
    rcases hm with ⟨-,hcalls⟩ | hbody
    · have hrefused := h.refused
      rw [hcalls,hq] at hrefused
      cases hrefused
    · have hmissing := h.missing
      rw [hbody] at hmissing
      cases hmissing
  · exact (h.others r hr).trusts hq hm

theorem Rules.body_of_trusts (hq : w.supply r 0 = .ok q) {s : State}
    (hs : (s.memory.cell r).Trusts q) :
    ∃ s', body w r s = (.value q,s') ∧ s.memory.Learned w s'.memory := by
  obtain ⟨s',hbody⟩ : ∃ s', body w r s = (.value q,s') := by
    rcases hs with ⟨hnone,hcalls⟩ | hsome
    · exact ⟨_,body_supplied hnone (hcalls ▸ hq)⟩
    · exact ⟨s,body_known hsome⟩
  refine ⟨s',hbody,?_⟩
  rcases reports_body w r s with h | ⟨_,_,_,-,hraised,-⟩
  · rwa [hbody] at h
  · rw [hbody] at hraised
    cases hraised

end Trusts

namespace Outline

open Peg.Parser
open Grammar (Deed)

variable {w : World} {body : RuleId → Parser} {p : Parser}

/-- The sections are written one after another, from every memory in which what is known of their
rules is right. -/
theorem Sectioned.run {seen : Finset RuleId} {waiting found : List Reference}
    (h : Sectioned body seen waiting found) (hw : ∀ x ∈ found, w.supply x.1 0 = .ok (body x.1))
    (known : List RuleId) (hknown : known.toFinset = seen) :
    ∃ deep, ∀ n ≥ deep, ∀ s : State, (∀ x ∈ found, (s.memory.cell x.1).Trusts (body x.1)) →
      (sections w n known waiting s).1 = .value (found.flatMap (sectionOf body)) := by
  induction h generalizing known with
  | done => exact ⟨0,fun n _ s _ => by cases n <;> rfl⟩
  | again hx _ ih =>
    obtain ⟨deep,ih⟩ := ih hw known hknown
    refine ⟨deep + 1,fun n hn s hs => ?_⟩
    obtain ⟨n,rfl⟩ : ∃ k, n = k + 1 := ⟨n - 1,by omega⟩
    rw [sections,if_pos (List.mem_toFinset.mp (hknown ▸ hx))]
    exact ih n (by omega) s hs
  | @first _ x _ found hx _ ih =>
    obtain ⟨hwx,hw⟩ := List.forall_mem_cons.mp hw
    obtain ⟨deep,ih⟩ := ih hw (x.1 :: known) (by rw [List.toFinset_cons,hknown])
    refine ⟨deep + 1,fun n hn s hs => ?_⟩
    obtain ⟨n,rfl⟩ : ∃ k, n = k + 1 := ⟨n - 1,by omega⟩
    obtain ⟨hsx,hs⟩ := List.forall_mem_cons.mp hs
    obtain ⟨s',hbody,hlearned⟩ := Rules.body_of_trusts hwx hsx
    have hrest := ih n (by omega) s' fun y hy => (hlearned y.1).trusts (hw y hy) (hs y hy)
    rw [sections,if_neg fun hmem => hx (hknown ▸ List.mem_toFinset.mpr hmem),
      Run.bind_of_value hbody,rulesIn_eq,Run.bind_of_value (Prod.ext hrest rfl)]
    rfl

/-- If finitely many rules can be reached and their suppliers succeed, the outline of a parser with
the bodies of rules ends after any session.  It is the outline of the parser, then a section for each
rule that can be reached, once each and for no other; the sections come level by level in the order
in which their rules are first mentioned. -/
theorem explain_covers_rules {rules : Finset RuleId}
    (hrules : ∀ r name, ReflTransGen (Opens body) p (.rule r name) → r ∈ rules)
    (hw : ∀ r ∈ rules, w.supply r 0 = .ok (body r)) :
    ∃ found : List Reference,
      (found.map Prod.fst).Nodup ∧
      (∀ x ∈ found, ReflTransGen (Opens body) p (.rule x.1 x.2)) ∧
      (∀ r name, ReflTransGen (Opens body) p (.rule r name) → r ∈ found.map Prod.fst) ∧
      (∀ n ≥ rules.card, firsts ∅ (levels body n p.mentions) = found) ∧
      ∃ deep, ∀ limit ≥ deep, ∀ (xs : List Deed) (s : State), s.memory = {} →
        (explain w limit p true (xs.foldl (Deed.perform w) s)).1 =
          .value (Text.joinWith ['\n'] (lines p 0 ++ found.flatMap (sectionOf body))) := by
  have hmentions : ∀ x ∈ p.mentions, ReflTransGen (Opens body) p (.rule x.1 x.2) :=
    fun x hx => opens_of_mem_mentions hx
  obtain ⟨found,hfound⟩ := Sectioned.exists_found hrules ∅ p.mentions hmentions
  have horder {n : Nat} (hn : found.length ≤ n) : firsts ∅ (levels body n p.mentions) = found :=
    hfound.eq_firsts rfl (by simp) hn
  have hnodup : (found.map Prod.fst).Nodup := horder le_rfl ▸ nodup_firsts ∅ _
  have hreached : ∀ x ∈ found, ReflTransGen (Opens body) p (.rule x.1 x.2) := by
    intro x hx
    rw [← horder le_rfl] at hx
    exact opens_of_mem_levels hmentions (firsts_subset _ _ hx)
  have hcard : found.length ≤ rules.card := by
    rw [← List.length_map Prod.fst,← List.toFinset_card_of_nodup hnodup]
    refine Finset.card_le_card fun r hr => ?_
    obtain ⟨x,hx,rfl⟩ := List.mem_map.mp (List.mem_toFinset.mp hr)
    exact hrules x.1 x.2 (hreached x hx)
  refine ⟨found,hnodup,hreached,fun r name h => ?_,fun n hn => horder (hcard.trans hn),?_⟩
  · obtain ⟨n,hn⟩ := exists_mem_levels (x := (r,name)) h
    have hmem : r ∈ targets (firsts ∅ (levels body (max n found.length) p.mentions)) := by
      rw [targets_firsts,Finset.sdiff_empty]
      exact mem_targets.mpr ⟨_,levels_subset (by omega) _ hn,rfl⟩
    rw [horder (by omega)] at hmem
    exact List.mem_toFinset.mp hmem
  · have hsupply (x : Reference) (hx : x ∈ found) : w.supply x.1 0 = .ok (body x.1) :=
      hw x.1 (hrules x.1 x.2 (hreached x hx))
    obtain ⟨deep,hdeep⟩ := hfound.run hsupply [] rfl
    refine ⟨deep,fun limit hl xs s hs => ?_⟩
    have htrusts (x : Reference) (hx : x ∈ found) :
        ((xs.foldl (Deed.perform w) s).memory.cell x.1).Trusts (body x.1) := by
      refine Grammar.session_invariant (I := fun m => (m.cell x.1).Trusts (body x.1))
        (fun h hm => (h x.1).trusts (hsupply x hx) hm) (fun h hm => h.trusts (hsupply x hx) hm) xs ?_
      rw [hs]
      exact .inl ⟨rfl,rfl⟩
    have hsections := hdeep limit hl _ htrusts
    rw [explain,if_pos rfl,rulesIn_eq,Run.bind_of_value (Prod.ext hsections rfl)]
    rfl

/-- Items with gaps between them, where both rules are called by one name. -/
def items : Parser :=
  .rep (.named "items") (.rule (.named "item") "item".toList) (.whole 0) none
    (.rule (.named "gap") "item".toList)

/-- An item is an item or a letter, and a gap is a comma. -/
def itemBody (r : RuleId) : Parser :=
  if r = .named "item" then
    .choice [.rule (.named "item") "item".toList,.terminal (.named "letter") (.char 'x')]
  else .terminal (.named "comma") (.char ',')

/-- Each of the two rules has its section, the one of the element first. -/
theorem items_explained :
    let w : World := ⟨fun r _ => .ok (itemBody r),fun _ => .recording none,fun _ => 0⟩
    ∃ deep, ∀ limit ≥ deep, (explain w limit items true {}).1 = .value (Text.joinWith ['\n']
      ["REPEAT (any number of times, separated by item):".toList,"  • rule item".toList,[],
        "item :=".toList,"  • FIRST of:".toList,"    • rule item".toList,
        "    • literal 'x'".toList,[],"item :=".toList,"  • literal ','".toList]) := by
  intro w
  have hrules (r : RuleId) (name : Text) (h : ReflTransGen (Opens itemBody) items (.rule r name)) :
      r ∈ ({.named "item",.named "gap"} : Finset RuleId) :=
    mem_of_opens (by decide) (by decide) h
  have hw : ∀ r ∈ ({.named "item",.named "gap"} : Finset RuleId), w.supply r 0 = .ok (itemBody r) :=
    fun _ _ => rfl
  obtain ⟨found,-,-,-,horder,deep,hdeep⟩ := explain_covers_rules hrules hw
  have hfound : found = [(.named "item","item".toList),(.named "gap","item".toList)] :=
    (horder 2 (by decide)).symm.trans (by decide)
  refine ⟨deep,fun limit hl => (hdeep limit hl [] {} rfl).trans ?_⟩
  rw [hfound]
  exact congrArg Answer.value (by decide +kernel)

end Outline
end Peg
