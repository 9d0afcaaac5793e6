import Mathlib.Algebra.GroupWithZero.Nat
import Peg.Outcome
import Peg.Proofs.Spelling

/-! Lines and columns of failures.
A text is its lines with a newline between each two, and every position of it lies on one of them:
some lines stand above, and the line itself is cut in two.  Main statement: line and column of a
failure are told from its position and tell it, and its report ends with that line and a caret
under the place. -/
namespace Peg

namespace Text

/-- The lines of a text, without their newlines. -/
def lines (t : Text) : List Text := t.splitOn '\n'

/-- Lines that stand above another one. -/
def ended (ls : List Text) : Text := ls.flatMap (· ++ ['\n'])

/-- Lines that stand below another one. -/
def following (ls : List Text) : Text := ls.flatMap ('\n' :: ·)

@[simp] theorem ended_nil : ended [] = [] := rfl

@[simp] theorem ended_cons (l : Text) (ls : List Text) : ended (l :: ls) = l ++ '\n' :: ended ls := by
  simp [ended]

theorem length_ended (ls : List Text) : (ended ls).length = (ls.map (·.length + 1)).sum := by
  simp [ended,List.length_flatMap]

theorem count_ended {ls : List Text} (h : ∀ l ∈ ls, '\n' ∉ l) : (ended ls).count '\n' = ls.length := by
  induction ls with
  | nil => rfl
  | cons l ls ih =>
    obtain ⟨hl,hls⟩ := List.forall_mem_cons.mp h
    rw [ended_cons,List.count_append,List.count_cons_self,ih hls,List.count_eq_zero.mpr hl,
      List.length_cons,Nat.zero_add]

/-- Read backwards, lines that stand above another one begin with a newline. -/
theorem takeWhile_reverse_ended (ls : List Text) :
    (ended ls).reverse.takeWhile (· != '\n') = [] := by
  rcases List.eq_nil_or_concat ls with rfl | ⟨ls,l,rfl⟩
  · rfl
  · simp [ended]

theorem lines_newline (t : Text) : lines ('\n' :: t) = [] :: lines t := by
  rw [lines,List.splitOn_eq_splitOnP,List.splitOnP_cons_eq_if_modifyHead,if_pos (by simp)]
  rfl

theorem lines_cons {c : Char} (hc : c ≠ '\n') {t l : Text} {ls : List Text} (h : lines t = l :: ls) :
    lines (c :: t) = (c :: l) :: ls := by
  rw [lines,List.splitOn_eq_splitOnP] at h ⊢
  rw [List.splitOnP_cons_eq_if_modifyHead,if_neg (by simpa using hc),h]
  rfl

/-- The first line of a text and those below make up the text. -/
theorem exists_first_line (t : Text) :
    ∃ l ls, lines t = l :: ls ∧ t = l ++ following ls ∧ '\n' ∉ l := by
  induction t with
  | nil => exact ⟨[],[],rfl,rfl,by simp⟩
  | cons c t ih =>
    obtain ⟨l,ls,hlines,ht,hl⟩ := ih
    by_cases hc : c = '\n'
    · subst hc
      refine ⟨[],l :: ls,?_,?_,by simp⟩
      · rw [lines_newline,hlines]
      · rw [ht]
        simp [following]
    · refine ⟨c :: l,ls,lines_cons hc hlines,?_,by simp [hl,Ne.symm hc]⟩
      rw [ht,List.cons_append]

/-- A position lies on a line: some lines stand above it and some below, and the line consists of
what stands left and right of the position. -/
structure Lies (t : Text) (i : Int) (above : List Text) (left right : Text) (below : List Text) :
    Prop where
  lines : t.lines = above ++ (left ++ right) :: below
  text : t = ended above ++ left ++ (right ++ following below)
  index : i = (ended above ++ left).length
  above : ∀ l ∈ above, '\n' ∉ l
  left : '\n' ∉ left
  right : '\n' ∉ right

/-- Every position in a text lies on one of its lines. -/
theorem exists_lies {t : Text} {n : Nat} (h : n ≤ t.length) :
    ∃ above left right below, t.Lies n above left right below := by
  induction t generalizing n with
  | nil =>
    obtain rfl : n = 0 := Nat.le_zero.mp h
    exact ⟨[],[],[],[],rfl,rfl,rfl,by simp,by simp,by simp⟩
  | cons c t ih =>
    cases n with
    | zero =>
      obtain ⟨l,ls,hlines,ht,hl⟩ := exists_first_line (c :: t)
      exact ⟨[],[],l,ls,hlines,ht,rfl,by simp,by simp,hl⟩
    | succ n =>
      obtain ⟨above,left,right,below,hlies⟩ := ih (Nat.le_of_succ_le_succ h)
      by_cases hc : c = '\n'
      · subst hc
        refine ⟨[] :: above,left,right,below,?_,?_,?_,?_,hlies.left,hlies.right⟩
        · rw [lines_newline,hlies.lines,List.cons_append]
        · exact (congrArg ('\n' :: ·) hlies.text).trans (by simp)
        · have := hlies.index
          simp at this ⊢
          omega
        · exact List.forall_mem_cons.mpr ⟨by simp,hlies.above⟩
      · -- the character belongs to the first line, which is the one of the position or above it
        cases above with
        | nil =>
          refine ⟨[],c :: left,right,below,lines_cons hc hlies.lines,?_,?_,by simp,?_,hlies.right⟩
          · exact (congrArg (c :: ·) hlies.text).trans (by simp)
          · have := hlies.index
            simp at this ⊢
            omega
          · simp [hlies.left,Ne.symm hc]
        | cons l above =>
          refine ⟨(c :: l) :: above,left,right,below,lines_cons hc hlies.lines,?_,?_,?_,hlies.left,
            hlies.right⟩
          · exact (congrArg (c :: ·) hlies.text).trans (by simp)
          · have := hlies.index
            simp at this ⊢
            omega
          · obtain ⟨hl,habove⟩ := List.forall_mem_cons.mp hlies.above
            exact List.forall_mem_cons.mpr ⟨by simp [hl,Ne.symm hc],habove⟩

namespace Lies

variable {t left right : Text} {i : Int} {above below : List Text}

theorem bound (h : t.Lies i above left right below) : t.bound i = (ended above ++ left).length := by
  rw [h.index,bound_natCast]

theorem take (h : t.Lies i above left right below) : t.take (t.bound i) = ended above ++ left := by
  rw [h.bound]
  exact (congrArg (List.take _) h.text).trans List.take_left

theorem drop (h : t.Lies i above left right below) :
    t.drop (t.bound i) = right ++ following below := by
  rw [h.bound]
  exact (congrArg (List.drop _) h.text).trans List.drop_left

theorem newlinesBefore (h : t.Lies i above left right below) : t.newlinesBefore i = above.length := by
  rw [Text.newlinesBefore,h.take,List.count_append,count_ended h.above,List.count_eq_zero.mpr h.left,
    Nat.add_zero]

theorem lineStart (h : t.Lies i above left right below) : t.lineStart i = (ended above).length := by
  have hleft : ∀ c ∈ left.reverse, (c != '\n') = true := by
    intro c hc
    rw [bne_iff_ne]
    rintro rfl
    exact h.left (List.mem_reverse.mp hc)
  rw [Text.lineStart,h.take,List.reverse_append,List.takeWhile_append_of_pos hleft,
    takeWhile_reverse_ended]
  simp

theorem lineEnd (h : t.Lies i above left right below) :
    t.lineEnd i = (ended above ++ left ++ right).length := by
  have hright : ∀ c ∈ right, (c != '\n') = true := by
    intro c hc
    rw [bne_iff_ne]
    rintro rfl
    exact h.right hc
  rw [Text.lineEnd,h.drop,List.takeWhile_append_of_pos hright,h.bound]
  cases below with
  | nil =>
    rw [if_neg (by simpa [following] using h.right),h.text]
    simp [following]
  | cons l below =>
    rw [if_pos (by simp [following])]
    simp [following,Nat.add_assoc]

theorem lineAt (h : t.Lies i above left right below) : t.lineAt i = left ++ right := by
  have htext : t = (ended above ++ (left ++ right)) ++ following below := by
    rw [h.text]
    simp
  rw [Text.lineAt,h.lineStart,h.lineEnd,slice_natCast,List.append_assoc]
  rw [congrArg (List.take _) htext,List.take_left,List.drop_left]

end Lies

theorem newline_not_mem_ofNat (n : Nat) : '\n' ∉ ofNat n :=
  fun h => absurd (isDigit_of_mem_ofNat h) (by decide)

theorem newline_not_mem_ofInt (i : Int) : '\n' ∉ ofInt i := by
  cases i with
  | ofNat n => exact newline_not_mem_ofNat n
  | negSucc n => simpa [ofInt] using newline_not_mem_ofNat (n + 1)

end Text

namespace Failure

variable {t left right : Text} {i : Int} {above below : List Text}

theorem line_eq (h : t.Lies i above left right below) : line t i = above.length + 1 := by
  rw [line,h.newlinesBefore]

theorem column_eq (h : t.Lies i above left right below) : column t i = left.length + 1 := by
  have hi := h.index
  rw [List.length_append] at hi
  rw [column,h.lineStart]
  omega

theorem caret_eq (t : Text) (i : Int) :
    caret t i = List.replicate (column t i - 1).toNat ' ' ++ ['^'] := by
  have hwidth : i - t.lineStart i = column t i - 1 := by
    rw [column]
    omega
  rw [caret,hwidth]

/-- Line and column of a position, in words. -/
def lineAndColumn (t : Text) (i : Int) : Text :=
  " (line ".toList ++ Text.ofNat (line t i) ++ ", column ".toList ++ Text.ofInt (column t i) ++ [')']

theorem newline_not_mem_lineAndColumn (t : Text) (i : Int) : '\n' ∉ lineAndColumn t i := by
  have hparts (l c : Text) (hl : '\n' ∉ l) (hc : '\n' ∉ c) :
      '\n' ∉ " (line ".toList ++ l ++ ", column ".toList ++ c ++ [')'] := by
    simp [hl,hc]
  exact hparts _ _ (Text.newline_not_mem_ofNat _) (Text.newline_not_mem_ofInt _)

theorem newline_not_mem_place (t : Text) (i : Int) : '\n' ∉ place t i := by
  have hparts (n l : Text) (hn : '\n' ∉ n) (hl : '\n' ∉ l) : '\n' ∉ ':' :: n ++ l := by
    simp [hn,hl]
  refine hparts _ _ (Text.newline_not_mem_ofInt i) ?_
  split
  · exact newline_not_mem_lineAndColumn t i
  · exact List.not_mem_nil

/-- What the first line of a report begins with. -/
def opening (t : Text) (i : Int) : Text :=
  "Failure at ".toList ++ place t i ++ ", expected: ".toList

theorem newline_not_mem_opening (t : Text) (i : Int) : '\n' ∉ opening t i := by
  have hparts (p : Text) (hp : '\n' ∉ p) :
      '\n' ∉ "Failure at ".toList ++ p ++ ", expected: ".toList := by
    simp [hp]
  exact hparts _ (newline_not_mem_place t i)

theorem report_eq (t : Text) (i : Int) (cause : Parser) :
    report t i cause = opening t i ++ cause.written ++ '\n' :: (t.lineAt i ++ '\n' :: caret t i) := by
  have hshape (l r e w : Text) : e ++ w ++ '\n' :: l ++ '\n' :: r = e ++ w ++ '\n' :: (l ++ '\n' :: r) :=
    List.append_assoc (e ++ w) ('\n' :: l) ('\n' :: r)
  exact hshape (t.lineAt i) (caret t i) (opening t i) cause.written

/-- The first line of a report tells the place, and what was expected or the beginning of that. -/
theorem firstLine_report (t : Text) (i : Int) (cause : Parser) :
    ∃ rest, (report t i cause).takeWhile (· != '\n') = opening t i ++ rest := by
  have hopening : ∀ c ∈ opening t i, (c != '\n') = true := by
    intro c hc
    rw [bne_iff_ne]
    rintro rfl
    exact newline_not_mem_opening t i hc
  rw [report_eq,List.append_assoc,List.takeWhile_append_of_pos hopening]
  exact ⟨_,rfl⟩

theorem opening_eq (t : Text) (i : Int) :
    opening t i = "Failure at :".toList ++ Text.ofInt i ++
      ((if '\n' ∈ t then lineAndColumn t i else []) ++ ", expected: ".toList) := by
  have hshape (n l : Text) : "Failure at ".toList ++ (':' :: n ++ l) ++ ", expected: ".toList =
      "Failure at :".toList ++ n ++ (l ++ ", expected: ".toList) := by
    simp
  exact hshape _ _

/-- The first line tells line and column in a text with newlines, and only there. -/
theorem lineAndColumn_prefix_iff (t : Text) (i : Int) (cause : Parser) :
    "Failure at :".toList ++ Text.ofInt i ++ lineAndColumn t i <+:
      (report t i cause).takeWhile (· != '\n') ↔ '\n' ∈ t := by
  obtain ⟨rest,hfirst⟩ := firstLine_report t i cause
  rw [hfirst,opening_eq,List.append_assoc (_ ++ _),List.prefix_append_right_inj,List.append_assoc]
  by_cases hn : '\n' ∈ t
  · rw [if_pos hn]
    exact iff_of_true (List.prefix_append _ _) hn
  · rw [if_neg hn]
    refine iff_of_false (fun hp => ?_) hn
    have hfirst := (List.cons_prefix_cons.mp hp).1
    cases hfirst

/-- Line and column of a position in a text say on which of its lines it lies and where, and so
determine it; and the report of a failure there ends with that line and a caret under the place. -/
theorem report_shows_line (t : Text) (i : Int) (cause : Parser) (h : 0 ≤ i) (hi : i ≤ t.length) :
    ∃ l, t.lines[line t i - 1]? = some l ∧
      1 ≤ line t i ∧ line t i ≤ t.lines.length ∧ 1 ≤ column t i ∧ column t i ≤ l.length + 1 ∧
      i = ((t.lines.take (line t i - 1)).map fun l : Text => l.length + 1).sum + column t i - 1 ∧
      (∀ j : Int, 0 ≤ j → j ≤ t.length → line t j = line t i → column t j = column t i → j = i) ∧
      (∃ head, report t i cause =
        head ++ '\n' :: (l ++ '\n' :: (List.replicate (column t i - 1).toNat ' ' ++ ['^']))) ∧
      ("Failure at :".toList ++ Text.ofInt i ++ lineAndColumn t i <+:
        (report t i cause).takeWhile (· != '\n') ↔ '\n' ∈ t) := by
  have hsum {j : Int} (hj : 0 ≤ j) (hjt : j ≤ t.length) :
      j = ((t.lines.take (line t j - 1)).map fun l : Text => l.length + 1).sum + column t j - 1 := by
    obtain ⟨n,rfl⟩ := Int.eq_ofNat_of_zero_le hj
    obtain ⟨above,left,right,below,hlies⟩ := Text.exists_lies (t := t) (n := n) (by omega)
    have hindex := hlies.index
    rw [List.length_append,Text.length_ended] at hindex
    rw [line_eq hlies,column_eq hlies,hlies.lines,Nat.add_sub_cancel,List.take_left]
    omega
  obtain ⟨n,rfl⟩ := Int.eq_ofNat_of_zero_le h
  obtain ⟨above,left,right,below,hlies⟩ := Text.exists_lies (t := t) (n := n) (by omega)
  have hline := line_eq hlies
  have hcolumn := column_eq hlies
  refine ⟨left ++ right,?_,?_,?_,?_,?_,hsum h hi,fun j hj hjt hjl hjc => ?_,?_,
    lineAndColumn_prefix_iff t n cause⟩
  · rw [hline,hlies.lines,Nat.add_sub_cancel,List.getElem?_append_right (Nat.le_refl _),Nat.sub_self]
    rfl
  · omega
  · rw [hline,hlies.lines]
    simp
  · omega
  · rw [hcolumn,List.length_append]
    omega
  · rw [hsum hj hjt,hjl,hjc]
    exact (hsum h hi).symm
  · rw [report_eq,hlies.lineAt,caret_eq]
    exact ⟨_,rfl⟩

/-- Behind the last newline of a text an empty line lies, where a failure has column one. -/
theorem report_shows_last_line :
    let t : Text := ['a','\n','\n','c','\n']
    0 ≤ (5 : Int) ∧ (5 : Int) ≤ t.length ∧ line t 5 = 4 ∧ column t 5 = 1 ∧
      ∃ head, report t 5 default = head ++ ['\n','\n','^'] := by
  intro t
  have hline : line t 5 = 4 := by decide
  have hcolumn : column t 5 = 1 := by decide
  have hlast : (Text.lines t)[3]? = some [] := by decide
  obtain ⟨l,hl,-,-,-,-,-,-,hreport,-⟩ := report_shows_line t 5 default (by decide) (by decide)
  rw [hline,hlast] at hl
  cases hl
  rw [hcolumn] at hreport
  exact ⟨by decide,by decide,hline,hcolumn,hreport⟩

end Failure
end Peg
