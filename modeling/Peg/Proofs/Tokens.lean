import Peg.Proofs.Recognisers
import Peg.Proofs.Spelling

/-! Written parsers as tokens.
Main statements: a plain parser is written by spelling its tokens one after another; and the tokens
are told from what is spelled. -/
namespace Peg

/-- What a written parser is made of: the leaves, and the signs between and behind them. -/
inductive Token
  | leaf (l : Leaf)
  | opening
  | closing
  | times
  | plus
  | tilde
  | opt
  | rep
  | least (n : Nat)
  | most (n : Nat)
  | comma
  | separator

namespace Token

def written : Token → Text
  | leaf l => l.terminal.written
  | opening => ['(']
  | closing => [')']
  | times => " * ".toList
  | plus => " + ".toList
  | tilde => ['~']
  | opt => ".opt()".toList
  | rep => ".rep(".toList
  | least n => "min=".toList ++ Text.ofNat n
  | most n => "max=".toList ++ Text.ofNat n
  | comma => ", ".toList
  | separator => "sep=".toList

@[simp] theorem written_leaf (l : Leaf) : (leaf l).written = l.terminal.written := rfl

@[simp] theorem written_rep : rep.written = ".rep(".toList := rfl

@[simp] theorem written_closing : closing.written = [')'] := rfl

@[simp] theorem written_opening : opening.written = ['('] := rfl

@[simp] theorem written_comma : comma.written = ", ".toList := rfl

@[simp] theorem written_separator : separator.written = "sep=".toList := rfl

@[simp] theorem written_least (n : Nat) : (least n).written = "min=".toList ++ Text.ofNat n := rfl

@[simp] theorem written_most (n : Nat) : (most n).written = "max=".toList ++ Text.ofNat n := rfl

def spell (ts : List Token) : Text := ts.flatMap written

@[simp] theorem spell_nil : spell [] = [] := rfl

@[simp] theorem spell_cons (t : Token) (ts : List Token) :
    spell (t :: ts) = t.written ++ spell ts := rfl

@[simp] theorem spell_append (ts us : List Token) : spell (ts ++ us) = spell ts ++ spell us :=
  List.flatMap_append

/-- Lists of tokens with a token between each two. -/
def join (t : Token) : List (List Token) → List Token
  | [] => []
  | [ts] => ts
  | ts :: tss => ts ++ t :: join t tss

theorem spell_join (t : Token) (tss : List (List Token)) :
    spell (join t tss) = Text.joinWith t.written (tss.map spell) := by
  induction tss with
  | nil => rfl
  | cons ts tss ih =>
    cases tss with
    | nil => rfl
    | cons us tss =>
      rw [join,spell_append,spell_cons,ih,← List.append_assoc]
      · rfl
      · simp

/-- Tokens in parentheses, where those are needed. -/
def grouped (needed : Bool) (ts : List Token) : List Token :=
  if needed then opening :: ts ++ [closing] else ts

theorem spell_grouped (needed : Bool) (ts : List Token) :
    spell (grouped needed ts) = Parser.parenthesised needed (spell ts) := by
  cases needed with
  | false => rfl
  | true => simp [grouped,Parser.parenthesised]

/-- What stands between the parentheses of a repetition. -/
def bounds (least : Nat) (most : Option Nat) (separator : Option (List Token)) :
    List (List Token) :=
  (if least = 0 then [] else [[.least least]]) ++ (most.map fun n => [.most n]).toList
    ++ (separator.map (.separator :: ·)).toList

theorem spell_bounds (least : Nat) (most : Option Nat) (separator : Option (List Token)) :
    spell (join .comma (bounds least most separator)) =
      Parser.writtenBounds (.whole least) (most.map fun n : Nat => .whole n)
        (separator.map spell) := by
  have hzero : (Quantity.whole least).isZero = decide (least = 0) := by
    by_cases h : least = 0 <;> simp [Quantity.isZero,Quantity.toValue,Value.truthy,h]
  have hwritten (n : Nat) : (Quantity.whole n).written = Text.ofNat n := rfl
  rw [spell_join,Parser.writtenBounds,hzero]
  by_cases h : least = 0
  · cases most <;> cases separator <;> simp [bounds,h,hwritten]
  · cases most <;> cases separator <;> simp [bounds,h,hwritten]

end Token

/-- A leaf without what it looks for. -/
def Leaf.kind : Leaf → Leaf
  | word _ => word []
  | oneOf _ => oneOf []
  | runOf .. => runOf [] 0
  | l => l

namespace Token

/-- A token without what it looks for and without its number. -/
def kind : Token → Token
  | leaf l => leaf l.kind
  | least _ => least 0
  | most _ => most 0
  | t => t

/-- The kind of the token that begins with given characters. -/
def kindAt : Text → Option Token
  | 'S' :: _ => some (leaf .start)
  | 'E' :: _ => some (leaf .finish)
  | 'P' :: 'a' :: _ => some (leaf .pass)
  | 'F' :: _ => some (leaf .fail)
  | 'P' :: '(' :: _ => some (leaf (.word []))
  | 'C' :: _ => some (leaf (.oneOf []))
  | 'W' :: _ => some (leaf (.runOf [] 0))
  | '(' :: _ => some opening
  | ')' :: _ => some closing
  | ' ' :: '*' :: _ => some times
  | ' ' :: '+' :: _ => some plus
  | '~' :: _ => some tilde
  | '.' :: 'o' :: _ => some opt
  | '.' :: 'r' :: _ => some rep
  | 'm' :: 'i' :: _ => some (least 0)
  | 'm' :: 'a' :: _ => some (most 0)
  | ',' :: _ => some comma
  | 's' :: _ => some separator
  | _ => none

theorem kindAt_written (t : Token) (u : Text) : kindAt (t.written ++ u) = some t.kind := by
  cases t with
  | leaf l => cases l <;> rfl
  | _ => rfl

end Token

theorem Terminal.written_of_leaf {s : Terminal} {l : Leaf} (h : s.leaf? = some l) :
    s.written = l.terminal.written := by
  cases s <;> cases h <;> rfl

/-- How the least length of a run is written. -/
def runBound (n : Nat) : Text := if n = 1 then [] else ", min=".toList ++ Text.ofNat n

theorem runBound_append_inj {m n : Nat} {u v : Text}
    (h : runBound m ++ ([')'] ++ u) = runBound n ++ ([')'] ++ v)) : m = n ∧ u = v := by
  unfold runBound at h
  by_cases hm : m = 1
  · by_cases hn : n = 1
    · rw [if_pos hm,if_pos hn] at h
      exact ⟨hm.trans hn.symm,List.append_cancel_left h⟩
    · simp [hm,hn] at h
  · by_cases hn : n = 1
    · simp [hm,hn] at h
    · rw [if_neg hm,if_neg hn,List.append_assoc,List.append_assoc] at h
      obtain ⟨rfl,hrest⟩ := Text.ofNat_append_inj (by simp) (by simp) (List.append_cancel_left h)
      exact ⟨rfl,List.append_cancel_left hrest⟩

/-- A leaf is told from how it is written, whatever follows. -/
theorem Leaf.written_append_inj {k l : Leaf} {u v : Text} (hkind : k.kind = l.kind)
    (h : k.terminal.written ++ u = l.terminal.written ++ v) : k = l ∧ u = v := by
  cases k with
  | start | finish | pass | fail =>
    cases l <;> cases hkind
    exact ⟨rfl,List.append_cancel_left h⟩
  | word s =>
    cases l <;> cases hkind
    rename_i t
    have h : "P(".toList ++ s.quoted ++ [')'] ++ u = "P(".toList ++ t.quoted ++ [')'] ++ v := h
    simp only [List.append_assoc] at h
    obtain ⟨rfl,hrest⟩ := Text.quoted_append_inj (List.append_cancel_left h)
    exact ⟨rfl,List.append_cancel_left hrest⟩
  | oneOf s =>
    cases l <;> cases hkind
    rename_i t
    have h : "CharIn(".toList ++ s.quoted ++ [')'] ++ u =
      "CharIn(".toList ++ t.quoted ++ [')'] ++ v := h
    simp only [List.append_assoc] at h
    obtain ⟨rfl,hrest⟩ := Text.quoted_append_inj (List.append_cancel_left h)
    exact ⟨rfl,List.append_cancel_left hrest⟩
  | runOf s m =>
    cases l <;> cases hkind
    rename_i t n
    have h : "WhileCharIn(".toList ++ s.quoted ++ runBound m ++ [')'] ++ u =
      "WhileCharIn(".toList ++ t.quoted ++ runBound n ++ [')'] ++ v := h
    simp only [List.append_assoc] at h
    obtain ⟨rfl,hrest⟩ := Text.quoted_append_inj (List.append_cancel_left h)
    obtain ⟨rfl,huv⟩ := runBound_append_inj hrest
    exact ⟨rfl,huv⟩

namespace Token

theorem written_append_inj {a b : Token} {u v : Text} (hu : ∀ c ∈ u.head?, c.isDigit = false)
    (hv : ∀ c ∈ v.head?, c.isDigit = false) (h : a.written ++ u = b.written ++ v) :
    a = b ∧ u = v := by
  have hkind : a.kind = b.kind := by
    have := congrArg kindAt h
    rwa [kindAt_written,kindAt_written,Option.some.injEq] at this
  cases a with
  | leaf k =>
    cases b with
    | leaf l =>
      obtain ⟨rfl,huv⟩ := Leaf.written_append_inj (Token.leaf.inj hkind) h
      exact ⟨rfl,huv⟩
    | _ => cases hkind
  | least m =>
    cases b with
    | least n =>
      have h : "min=".toList ++ Text.ofNat m ++ u = "min=".toList ++ Text.ofNat n ++ v := h
      simp only [List.append_assoc] at h
      obtain ⟨rfl,huv⟩ := Text.ofNat_append_inj hu hv (List.append_cancel_left h)
      exact ⟨rfl,huv⟩
    | _ => cases hkind
  | most m =>
    cases b with
    | most n =>
      have h : "max=".toList ++ Text.ofNat m ++ u = "max=".toList ++ Text.ofNat n ++ v := h
      simp only [List.append_assoc] at h
      obtain ⟨rfl,huv⟩ := Text.ofNat_append_inj hu hv (List.append_cancel_left h)
      exact ⟨rfl,huv⟩
    | _ => cases hkind
  | _ =>
    cases b <;> cases hkind
    exact ⟨rfl,List.append_cancel_left h⟩

/-- No token begins with a digit. -/
theorem head?_spell (ts : List Token) : ∀ c ∈ (spell ts).head?, c.isDigit = false := by
  cases ts with
  | nil => nofun
  | cons t ts =>
    rw [spell_cons]
    cases t with
    | leaf l => cases l <;> (rintro c ⟨⟩; rfl)
    | _ =>
      rintro c ⟨⟩
      rfl

/-- Tokens are told from what they spell. -/
theorem spell_injective {ts us : List Token} (h : spell ts = spell us) : ts = us := by
  have hne (t : Token) (ts : List Token) : spell (t :: ts) ≠ [] := fun h => by
    have := kindAt_written t (spell ts)
    rw [← spell_cons,h] at this
    cases this
  induction ts generalizing us with
  | nil =>
    cases us with
    | nil => rfl
    | cons u us => exact absurd h.symm (hne u us)
  | cons t ts ih =>
    cases us with
    | nil => exact absurd h (hne t ts)
    | cons u us =>
      obtain ⟨rfl,hrest⟩ := written_append_inj (head?_spell ts) (head?_spell us) h
      rw [ih hrest]

end Token

/-- Whole numbers are reached by as many rounds. -/
theorem Quantity.map_toNat (most : Option Nat) :
    (most.map fun n : Nat => Quantity.whole n).map (·.toNat) = most := by
  cases most <;> rfl

namespace Parser

mutual
/-- The tokens that a parser is written with; for the leaves that are not plain there are none. -/
def tokens : Parser → List Token
  | terminal _ s => (s.leaf?.map .leaf).toList
  | seq _ parts => Token.join .times (tokensOfParts parts)
  | choice branches => Token.join .plus (tokensOfBranches branches)
  | rep _ element least most separator =>
    Token.grouped element.needsParens (tokens element)
      ++ .rep :: Token.join .comma (Token.bounds least.toNat (most.map (·.toNat))
        (if separator.isPass then none else some (tokens separator))) ++ [.closing]
  | opt body => Token.grouped body.needsParens (tokens body) ++ [.opt]
  | not body => .tilde :: Token.grouped body.needsParens (tokens body)
  | cut body | map _ body .. | flatMap _ body .. | filter _ body .. | capture body
  | log _ body .. => tokens body
  | rule .. => []

/-- The parts of a sequence; a choice among them stands in parentheses. -/
def tokensOfParts : List Parser → List (List Token)
  | [] => []
  | p :: ps => Token.grouped p.isChoice (tokens p) :: tokensOfParts ps

def tokensOfBranches : List Parser → List (List Token)
  | [] => []
  | p :: ps => tokens p :: tokensOfBranches ps
end

theorem writtenParts_eq_spell {ps : List Parser} (h : ∀ p ∈ ps, p.written = Token.spell p.tokens) :
    writtenParts ps = (tokensOfParts ps).map Token.spell := by
  induction ps with
  | nil => rfl
  | cons p ps ih =>
    rw [writtenParts,tokensOfParts,List.map_cons,Token.spell_grouped,h p (by simp),
      ih fun q hq => h q (by simp [hq])]

theorem writtenBranches_eq_spell {ps : List Parser}
    (h : ∀ p ∈ ps, p.written = Token.spell p.tokens) :
    writtenBranches ps = (tokensOfBranches ps).map Token.spell := by
  induction ps with
  | nil => rfl
  | cons p ps ih =>
    rw [writtenBranches,tokensOfBranches,List.map_cons,h p (by simp),
      ih fun q hq => h q (by simp [hq])]

/-- A plain parser is written with its tokens. -/
theorem written_eq_spell {p : Parser} (hp : p.Plain) : p.written = Token.spell p.tokens := by
  induction hp with
  | @terminal id s hs =>
    obtain ⟨l,hl⟩ := Option.isSome_iff_exists.mp hs
    rw [written,tokens,hl,Terminal.written_of_leaf hl]
    simp
  | seq _ _ ih =>
    rw [written,tokens,Token.spell_join,writtenParts_eq_spell ih]
    rfl
  | choice _ _ ih =>
    rw [written,tokens,Token.spell_join,writtenBranches_eq_spell ih]
    rfl
  | @rep id p q least most _ _ ihp ihq =>
    have hseparator : (if q.isPass then none else some q.written) =
        (if q.isPass then none else some q.tokens).map Token.spell := by
      cases q.isPass
      · simp [ihq]
      · rfl
    rw [written,tokens,Token.spell_append,Token.spell_append,Token.spell_grouped,Token.spell_cons,
      Quantity.map_toNat,Quantity.toNat_whole,Int.toNat_natCast,Token.spell_bounds,ihp,hseparator]
    simp
  | opt _ ih =>
    rw [written,tokens,Token.spell_append,Token.spell_grouped,ih]
    rfl
  | not _ ih =>
    rw [written,tokens,Token.spell_cons,Token.spell_grouped,ih]
    rfl
  | map _ _ ih => exact ih
  | capture _ ih => exact ih

end Parser
end Peg
