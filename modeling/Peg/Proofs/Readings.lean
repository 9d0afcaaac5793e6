import Peg.Proofs.Tokens

/-! Written parsers read back.
A reader goes over tokens with the usual order of operations: a method binds tightest, then a
negation, then `*` and then `+`.  Main statement: where every operand stands in parentheses that
binds less tightly than its place, the reader finds in the tokens what the parser recognises, so
that parsers which are written alike accept alike. -/
namespace Peg

namespace Parser

/-- How tightly the outermost sign binds in what is written. -/
inductive Binding
  | operand
  | factor
  | product
  | sum
deriving DecidableEq

def binding : Parser → Binding
  | seq .. => .product
  | choice _ => .sum
  | not _ => .factor
  | map _ body .. | flatMap _ body .. | capture body | log _ body .. => binding body
  | _ => .operand

mutual
/-- Whether every operand that binds less tightly than its place is written in parentheses. -/
def legible : Parser → Bool
  | terminal .. | rule .. => true
  | seq _ parts => legibleParts parts
  | choice branches => legibleBranches branches
  | rep _ body _ _ separator =>
    (body.needsParens || body.binding = .operand) && legible body && legible separator
  | opt body | cut body | filter _ body .. =>
    (body.needsParens || body.binding = .operand) && legible body
  | not body =>
    (body.needsParens || body.binding = .operand || body.binding = .factor) && legible body
  | map _ body .. | flatMap _ body .. | capture body | log _ body .. => legible body

def legibleParts : List Parser → Bool
  | [] => true
  | p :: ps => (p.isChoice || p.binding ≠ .sum) && legible p && legibleParts ps

def legibleBranches : List Parser → Bool
  | [] => true
  | p :: ps => legible p && legibleBranches ps
end

theorem legibleParts_iff {ps : List Parser} : legibleParts ps = true ↔
    ∀ p ∈ ps, (p.isChoice = true ∨ p.binding ≠ .sum) ∧ p.legible = true := by
  induction ps with
  | nil => simp [legibleParts]
  | cons p ps ih => simp [legibleParts,ih]

theorem legibleBranches_iff {ps : List Parser} :
    legibleBranches ps = true ↔ ∀ p ∈ ps, p.legible = true := by
  induction ps with
  | nil => simp [legibleBranches]
  | cons p ps ih => simp [legibleBranches,ih]

end Parser

namespace Reading

/-- What was read since the last open parenthesis: the branches before the last `+`, what comes
after that up to the last `*`, what is made of the operand after that, and this operand. -/
structure Frame where
  branches : Recogniser := .refuse
  front : Recogniser := .accept
  signs : Recogniser → Recogniser := id
  operand : Recogniser := .accept

namespace Frame

def factor (f : Frame) : Recogniser := f.signs f.operand

def product (f : Frame) : Recogniser := f.front.andThen f.factor

def sum (f : Frame) : Recogniser := f.branches.orElse f.product

end Frame

/-- What an open parenthesis is there for. -/
inductive Purpose
  | group
  | rep (least : Nat) (most : Option Nat)

/-- What becomes of the operand before a parenthesis and of what stands in it. -/
def Purpose.close (before inside : Recogniser) : Purpose → Recogniser
  | group => inside
  | rep least most => before.times least most inside

/-- The frame that is being read, and those around it with what they are interrupted for. -/
structure Reader where
  frame : Frame := {}
  outside : List (Frame × Purpose) := []

namespace Reader

def step : Reader → Token → Reader
  | ⟨f,out⟩, .leaf l => ⟨{ f with operand := l.terminal.recogniser },out⟩
  | ⟨f,out⟩, .opt => ⟨{ f with operand := f.operand.opt },out⟩
  | ⟨f,out⟩, .tilde => ⟨{ f with signs := f.signs ∘ Recogniser.not },out⟩
  | ⟨f,out⟩, .times => ⟨{ branches := f.branches, front := f.product },out⟩
  | ⟨f,out⟩, .plus => ⟨{ branches := f.sum },out⟩
  | ⟨f,out⟩, .opening => ⟨{},(f,.group) :: out⟩
  | ⟨f,out⟩, .rep => ⟨{},(f,.rep 0 none) :: out⟩
  | ⟨f,(g,.rep _ most) :: out⟩, .least n => ⟨f,(g,.rep n most) :: out⟩
  | ⟨f,(g,.rep least _) :: out⟩, .most n => ⟨f,(g,.rep least (some n)) :: out⟩
  | ⟨f,(g,purpose) :: out⟩, .closing =>
    ⟨{ g with operand := purpose.close g.operand f.sum },out⟩
  | s, _ => s

def read (s : Reader) (ts : List Token) : Reader := ts.foldl step s

@[simp] theorem read_nil (s : Reader) : s.read [] = s := rfl

@[simp] theorem read_cons (s : Reader) (t : Token) (ts : List Token) :
    s.read (t :: ts) = (s.step t).read ts := rfl

@[simp] theorem read_append (s : Reader) (ts us : List Token) :
    s.read (ts ++ us) = (s.read ts).read us := List.foldl_append

end Reader

/-- What a list of tokens says. -/
def meaning (ts : List Token) : Recogniser := (Reader.read {} ts).frame.sum

/-- Reading tokens, after any others that are followed by what binds so tightly, adds a recogniser
to what was read. -/
def Reads (ts : List Token) (r : Recogniser) : Parser.Binding → Prop
  | .operand => ∀ f out, Reader.read ⟨f,out⟩ ts = ⟨{ f with operand := r },out⟩
  | .factor => ∀ f out, ∃ g, Reader.read ⟨f,out⟩ ts = ⟨g,out⟩ ∧ g.branches = f.branches ∧
      g.front = f.front ∧ g.factor = f.signs r
  | .product => ∀ branches front out, ∃ g,
      Reader.read ⟨{ branches := branches, front := front },out⟩ ts = ⟨g,out⟩ ∧
        g.branches = branches ∧ g.product = front.andThen r
  | .sum => ∀ branches out, ∃ g, Reader.read ⟨{ branches := branches },out⟩ ts = ⟨g,out⟩ ∧
      g.sum = branches.orElse r

namespace Reads

variable {ts us : List Token} {r s : Recogniser} {b : Parser.Binding}

theorem operand_factor (h : Reads ts r .operand) : Reads ts r .factor :=
  fun f out => ⟨_,h f out,rfl,rfl,rfl⟩

theorem factor_product (h : Reads ts r .factor) : Reads ts r .product := by
  intro branches front out
  obtain ⟨g,hread,hbranches,hfront,hfactor⟩ := h { branches := branches, front := front } out
  refine ⟨g,hread,hbranches,?_⟩
  rw [Frame.product,hfront,hfactor]
  rfl

theorem product_sum (h : Reads ts r .product) : Reads ts r .sum := by
  intro branches out
  obtain ⟨g,hread,hbranches,hproduct⟩ := h branches .accept out
  refine ⟨g,hread,?_⟩
  rw [Frame.sum,hbranches,hproduct,Recogniser.accept_andThen]

/-- What binds tightly can stand where less is asked for. -/
theorem of_operand (h : Reads ts r .operand) (b : Parser.Binding) : Reads ts r b := by
  cases b with
  | operand => exact h
  | factor => exact h.operand_factor
  | product => exact h.operand_factor.factor_product
  | sum => exact h.operand_factor.factor_product.product_sum

theorem product (h : Reads ts r b) (hb : b ≠ .sum) : Reads ts r .product := by
  cases b with
  | operand => exact h.of_operand .product
  | factor => exact h.factor_product
  | product => exact h
  | sum => exact absurd rfl hb

theorem sum (h : Reads ts r b) : Reads ts r .sum := by
  by_cases hb : b = .sum
  · exact hb ▸ h
  · exact (h.product hb).product_sum

theorem meaning_eq (h : Reads ts r b) : meaning ts = r := by
  obtain ⟨g,hread,hsum⟩ := h.sum .refuse []
  exact (congrArg (fun s => s.frame.sum) hread).trans hsum

theorem leaf (l : Leaf) : Reads [.leaf l] l.terminal.recogniser .operand := fun _ _ => rfl

/-- What stands in parentheses binds tightest. -/
theorem parentheses (h : Reads ts r .sum) : Reads (.opening :: ts ++ [.closing]) r .operand := by
  intro f out
  obtain ⟨g,hread,hsum⟩ := h .refuse ((f,.group) :: out)
  have hsum : g.sum = r := hsum
  have hopen : Reader.step ⟨f,out⟩ .opening = ⟨{},(f,.group) :: out⟩ := rfl
  rw [List.cons_append,Reader.read_cons,Reader.read_append,hopen,hread,← hsum]
  rfl

section Grouped

variable {needed : Bool} {b' : Parser.Binding}

theorem grouped (h : Reads ts r b) (hb : needed = true ∨ Reads ts r b') :
    Reads (Token.grouped needed ts) r b' := by
  cases needed with
  | false => exact hb.resolve_left (by decide)
  | true => exact h.sum.parentheses.of_operand b'

theorem grouped_operand (h : Reads ts r b) (hb : needed = true ∨ b = .operand) :
    Reads (Token.grouped needed ts) r .operand :=
  h.grouped (hb.imp_right fun hb : b = .operand => hb ▸ h)

theorem grouped_factor (h : Reads ts r b) (hb : (needed = true ∨ b = .operand) ∨ b = .factor) :
    Reads (Token.grouped needed ts) r .factor := by
  rcases hb with hb | rfl
  · exact (h.grouped_operand hb).operand_factor
  · exact h.grouped (.inr h)

theorem grouped_product (h : Reads ts r b) (hb : needed = true ∨ b ≠ .sum) :
    Reads (Token.grouped needed ts) r .product :=
  h.grouped (hb.imp_right h.product)

end Grouped

theorem opt (h : Reads ts r .operand) : Reads (ts ++ [.opt]) r.opt .operand := by
  intro f out
  rw [Reader.read_append,h]
  rfl

theorem not (h : Reads ts r .factor) : Reads (.tilde :: ts) r.not .factor := by
  intro f out
  exact h { f with signs := f.signs ∘ Recogniser.not } out

theorem times (h : Reads ts r .product) (h' : Reads us s .product) :
    Reads (ts ++ .times :: us) (r.andThen s) .product := by
  intro branches front out
  obtain ⟨g,hread,hbranches,hproduct⟩ := h branches front out
  obtain ⟨g',hread',hbranches',hproduct'⟩ := h' branches (front.andThen r) out
  have hstep : Reader.step ⟨g,out⟩ .times =
      ⟨{ branches := branches, front := front.andThen r },out⟩ := by
    rw [Reader.step,hbranches,hproduct]
  refine ⟨g',?_,hbranches',?_⟩
  · rw [Reader.read_append,Reader.read_cons,hread,hstep,hread']
  · rw [hproduct',Recogniser.andThen_assoc]

theorem plus (h : Reads ts r .sum) (h' : Reads us s .sum) :
    Reads (ts ++ .plus :: us) (r.orElse s) .sum := by
  intro branches out
  obtain ⟨g,hread,hsum⟩ := h branches out
  obtain ⟨g',hread',hsum'⟩ := h' (branches.orElse r) out
  have hstep : Reader.step ⟨g,out⟩ .plus = ⟨{ branches := branches.orElse r },out⟩ := by
    rw [Reader.step,hsum]
  refine ⟨g',?_,?_⟩
  · rw [Reader.read_append,Reader.read_cons,hread,hstep,hread']
  · rw [hsum',Recogniser.orElse_assoc]

/-- Commas only part what stands between them. -/
theorem read_join_comma (s : Reader) (tss : List (List Token)) :
    s.read (Token.join .comma tss) = s.read tss.flatten := by
  have hcomma (s : Reader) : s.step .comma = s := rfl
  induction tss generalizing s with
  | nil => rfl
  | cons ts tss ih =>
    cases tss with
    | nil => simp [Token.join]
    | cons us tss =>
      have hjoin : Token.join .comma (ts :: us :: tss) =
        ts ++ .comma :: Token.join .comma (us :: tss) := rfl
      rw [hjoin,Reader.read_append,Reader.read_cons,hcomma,ih]
      simp

theorem read_bounds (f : Frame) (out : List (Frame × Purpose)) (least : Nat) (most : Option Nat)
    (separator : Option (List Token)) :
    Reader.read ⟨{},(f,.rep 0 none) :: out⟩
        (Token.join .comma (Token.bounds least most separator)) =
      Reader.read ⟨{},(f,.rep least most) :: out⟩ (separator.getD []) := by
  rw [read_join_comma,Token.bounds,List.flatten_append,List.flatten_append,Reader.read_append,
    Reader.read_append]
  have hleast : Reader.read ⟨{},(f,.rep 0 none) :: out⟩
      (if least = 0 then [] else [[Token.least least]]).flatten =
        ⟨{},(f,.rep least none) :: out⟩ := by
    by_cases h : least = 0
    · rw [if_pos h,h]
      rfl
    · rw [if_neg h]
      rfl
  rw [hleast]
  cases most <;> cases separator <;> simp <;> rfl

theorem rep (h : Reads ts r .operand) (least : Nat) (most : Option Nat)
    {separator : Option (List Token)} (hs : Reads (separator.getD []) s .sum) :
    Reads (ts ++ .rep :: Token.join .comma (Token.bounds least most separator) ++ [.closing])
      (r.times least most s) .operand := by
  intro f out
  obtain ⟨g,hread,hsum⟩ := hs .refuse (({ f with operand := r },.rep least most) :: out)
  have hsum : g.sum = s := hsum
  have hinside : Reader.read ⟨{ f with operand := r },out⟩
      (.rep :: Token.join .comma (Token.bounds least most separator)) =
        ⟨g,({ f with operand := r },.rep least most) :: out⟩ :=
    (read_bounds _ out least most separator).trans hread
  rw [Reader.read_append,Reader.read_append,h,hinside,← hsum]
  rfl

theorem nil : Reads [] .accept .sum := fun _ _ => ⟨_,rfl,rfl⟩

end Reads

end Reading

namespace Parser

open Reading

theorem reads_parts {ps : List Parser} (hne : ps ≠ [])
    (h : ∀ p ∈ ps, Reads (Token.grouped p.isChoice p.tokens) p.recogniser .product) :
    Reads (Token.join .times (tokensOfParts ps)) (recogniserAll ps) .product := by
  induction ps with
  | nil => exact absurd rfl hne
  | cons p ps ih =>
    cases ps with
    | nil =>
      have hone : recogniserAll [p] = p.recogniser := Recogniser.andThen_accept _
      rw [hone]
      exact h p (by simp)
    | cons q ps => exact (h p (by simp)).times (ih (by simp) fun x hx => h x (by simp [hx]))

theorem reads_branches {ps : List Parser} (hne : ps ≠ [])
    (h : ∀ p ∈ ps, Reads p.tokens p.recogniser .sum) :
    Reads (Token.join .plus (tokensOfBranches ps)) (recogniserAny ps) .sum := by
  induction ps with
  | nil => exact absurd rfl hne
  | cons p ps ih =>
    cases ps with
    | nil =>
      have hone : recogniserAny [p] = p.recogniser := Recogniser.orElse_refuse _
      rw [hone]
      exact h p (by simp)
    | cons q ps => exact (h p (by simp)).plus (ih (by simp) fun x hx => h x (by simp [hx]))

theorem recogniser_of_isPass {p : Parser} (h : p.isPass = true) : p.recogniser = .accept := by
  unfold isPass at h
  split at h
  · funext t i
    simp [recogniser,Terminal.recogniser,Terminal.scan,Recogniser.accept]
  · cases h

/-- A plain parser that is legible is read back from its tokens. -/
theorem reads_tokens {p : Parser} (hp : p.Plain) (hl : p.legible = true) :
    Reads p.tokens p.recogniser p.binding := by
  induction hp with
  | @terminal id s hs =>
    obtain ⟨l,hleaf⟩ := Option.isSome_iff_exists.mp hs
    have hr : (terminal id s).recogniser = l.terminal.recogniser :=
      Terminal.recogniser_of_leaf hleaf
    rw [tokens,hleaf,hr]
    exact .leaf l
  | @seq id ps hlen _ ih =>
    have hl := legibleParts_iff.mp hl
    exact reads_parts (by rintro rfl; simp at hlen) fun p hp =>
      (ih p hp (hl p hp).2).grouped_product (hl p hp).1
  | @choice ps hlen _ ih =>
    have hl := legibleBranches_iff.mp hl
    exact reads_branches (by rintro rfl; simp at hlen) fun p hp => (ih p hp (hl p hp)).sum
  | @rep id p q least most _ _ ihp ihq =>
    simp only [legible,Bool.and_eq_true,Bool.or_eq_true,decide_eq_true_eq] at hl
    obtain ⟨⟨hgroup,hlp⟩,hlq⟩ := hl
    have hseparator :
        Reads ((if q.isPass then none else some q.tokens).getD []) q.recogniser .sum := by
      cases hpass : q.isPass with
      | false => exact (ihq hlq).sum
      | true =>
        rw [recogniser_of_isPass hpass]
        exact .nil
    have hrep := ((ihp hlp).grouped_operand hgroup).rep least most hseparator
    rw [tokens,recogniser,Quantity.toNat_whole,Int.toNat_natCast,Quantity.map_toNat]
    exact hrep
  | @opt p _ ih =>
    simp only [legible,Bool.and_eq_true,Bool.or_eq_true,decide_eq_true_eq] at hl
    exact ((ih hl.2).grouped_operand hl.1).opt
  | @not p _ ih =>
    simp only [legible,Bool.and_eq_true,Bool.or_eq_true,decide_eq_true_eq] at hl
    exact ((ih hl.2).grouped_factor hl.1).not
  | map _ _ ih => exact ih hl
  | capture _ ih => exact ih hl

/-- Plain parsers that are legible and written alike are put together to the same recogniser. -/
theorem recogniser_of_written {p q : Parser} (hp : p.Plain) (hq : q.Plain) (hpl : p.legible = true)
    (hql : q.legible = true) (h : p.written = q.written) : p.recogniser = q.recogniser := by
  rw [written_eq_spell hp,written_eq_spell hq] at h
  have htokens : p.tokens = q.tokens := Token.spell_injective h
  rw [← (reads_tokens hp hpl).meaning_eq,htokens,(reads_tokens hq hql).meaning_eq]

end Parser

/-- Where an outcome ends that is a success. -/
def Outcome.end? : Outcome → Option Int
  | success _ j _ => some j
  | failure .. => none

theorem Outcome.Recognised.end?_eq {t : Text} {i : Nat} {e : Option Nat} {o : Outcome}
    (h : o.Recognised t i e) : o.end? = e.map (↑) := by
  cases h with
  | success he | failure he =>
    rw [he]
    rfl

namespace Grammar

variable {G : Grammar} {w : World} {p q : Parser}

/-- Parsers that are written alike accept alike.  If two plain parsers over a grammar are legible
and written alike, then from every start that is not negative, whatever hooks are told and whatever
is remembered, both come to an outcome, and they succeed with the same end or both fail. -/
theorem parse_written_alike (hw : ∀ r ∈ G.rules, w.supply r 0 = .ok (G.body r)) (hp : G.Has p)
    (hq : G.Has q) (hpp : p.Plain) (hqp : q.Plain) (hpl : p.legible = true) (hql : q.legible = true)
    (h : p.written = q.written) (t : Text) {i : Int} (hi : 0 ≤ i) (hook hook' : Option HookId)
    (config config' : Option Config) {s s' : State} (hs : G.Settled (fun _ => 0) s.memory)
    (hs' : G.Settled (fun _ => 0) s'.memory) :
    ∃ o o' deep, (∀ limit ≥ deep, (Parsing.parse w limit p t i hook config s).1 = .value o ∧
        (Parsing.parse w limit q t i hook' config' s').1 = .value o') ∧ o.end? = o'.end? := by
  obtain ⟨k,rfl⟩ := Int.eq_ofNat_of_zero_le hi
  obtain ⟨o,deep,ho,hr⟩ := parse_recognised (t := t) hw hp hpp k hook config hs
  obtain ⟨o',deep',ho',hr'⟩ := parse_recognised (t := t) hw hq hqp k hook' config' hs'
  refine ⟨o,o',max deep deep',fun limit hl => ⟨ho limit (by omega),ho' limit (by omega)⟩,?_⟩
  rw [hr.end?_eq,hr'.end?_eq,Parser.recogniser_of_written hpp hqp hpl hql h]

/-- Words of two letters that a third one does not follow, with commas between them; a word is
grouped from the left. -/
def leftWords : Parser :=
  .rep (.named "left words") (.seq (.named "left") leftWords.parts) 1 none leftWords.comma
where
  letter (c : Char) : Parser := .terminal (.named "letter") (.char c)
  comma : Parser := letter ','
  pair : List Parser := [letter 'a',letter 'b']
  parts : List Parser := [.seq (.named "pair") pair,.not (letter 'c')]

/-- The same words, grouped from the right and captured. -/
def rightWords : Parser :=
  .rep (.named "right words") (.capture (.seq (.named "right") rightWords.parts)) 1 none
    leftWords.comma
where
  rest : List Parser := [.terminal (.named "b") (.literal ['b']),.not (leftWords.letter 'c')]
  parts : List Parser := [leftWords.letter 'a',.seq (.named "rest") rest]

def words : Grammar where
  rules := []
  body _ := leftWords
  parts
    | .named "left" => some leftWords.parts
    | .named "pair" => some leftWords.pair
    | .named "right" => some rightWords.parts
    | .named "rest" => some rightWords.rest
    | _ => none
  closed := nofun

theorem has_leftWords : words.Has leftWords := by
  refine .rep (.seq rfl ?_) .terminal
  simp only [leftWords.parts,List.mem_cons,List.not_mem_nil,or_false,forall_eq_or_imp,forall_eq]
  exact ⟨.seq rfl (by simp [leftWords.pair,leftWords.letter]),.not .terminal⟩

theorem has_rightWords : words.Has rightWords := by
  refine .rep (.capture (.seq rfl ?_)) .terminal
  simp only [rightWords.parts,List.mem_cons,List.not_mem_nil,or_false,forall_eq_or_imp,forall_eq]
  refine ⟨.terminal,.seq rfl ?_⟩
  simp only [rightWords.rest,List.mem_cons,List.not_mem_nil,or_false,forall_eq_or_imp,forall_eq]
  exact ⟨.terminal,.not .terminal⟩

theorem plain_leftWords : leftWords.Plain := by
  refine .rep 1 none (.seq (by decide) ?_) (.terminal rfl)
  simp only [leftWords.parts,List.mem_cons,List.not_mem_nil,or_false,forall_eq_or_imp,forall_eq]
  refine ⟨.seq (by decide) ?_,.not (.terminal rfl)⟩
  simp only [leftWords.pair,List.mem_cons,List.not_mem_nil,or_false,forall_eq_or_imp,forall_eq]
  exact ⟨.terminal rfl,.terminal rfl⟩

theorem plain_rightWords : rightWords.Plain := by
  refine .rep 1 none (.capture (.seq (by decide) ?_)) (.terminal rfl)
  simp only [rightWords.parts,List.mem_cons,List.not_mem_nil,or_false,forall_eq_or_imp,forall_eq]
  refine ⟨.terminal rfl,.seq (by decide) ?_⟩
  simp only [rightWords.rest,List.mem_cons,List.not_mem_nil,or_false,forall_eq_or_imp,forall_eq]
  exact ⟨.terminal rfl,.not (.terminal rfl)⟩

/-- Both are written `(P('a') * P('b') * ~P('c')).rep(min=1, sep=P(','))`. -/
theorem parse_words_alike :
    let w : World := ⟨fun _ _ => .error .mismatch,fun _ => .recording none,fun _ => 0⟩
    ∃ o o' deep, (∀ limit ≥ deep,
      (Parsing.parse w limit leftWords "ab,ab,abc".toList 0 none none {}).1 = .value o ∧
        (Parsing.parse w limit rightWords "ab,ab,abc".toList 0 none none {}).1 = .value o') ∧
      o.end? = o'.end? := by
  intro w
  exact parse_written_alike (G := words) nofun has_leftWords has_rightWords plain_leftWords
    plain_rightWords (by decide +kernel) (by decide +kernel) (by decide +kernel) "ab,ab,abc".toList
    (Int.le_refl 0) none none none none (settled_new words _) (settled_new words _)

/-- A negation stands before a method without parentheses. -/
theorem written_opt_not (p : Parser) :
    (Parser.opt (.not p)).written = (Parser.not (.opt p)).written := by
  simp [Parser.written,Parser.parenthesised,Parser.needsParens]

/-- An option of a negation and the negation of an option are written alike, but one of them always
succeeds and the other never does. -/
theorem parse_opt_not (hw : ∀ r ∈ G.rules, w.supply r 0 = .ok (G.body r)) (hp : G.Has p)
    (hplain : p.Plain) (t : Text) (i : Nat) (hook : Option HookId) (config : Option Config)
    {s : State} (hs : G.Settled (fun _ => 0) s.memory) :
    ∃ o o' deep, (∀ limit ≥ deep,
      (Parsing.parse w limit (.opt (.not p)) t i hook config s).1 = .value o ∧
        (Parsing.parse w limit (.not (.opt p)) t i hook config s).1 = .value o') ∧
      o.end? ≠ none ∧ o'.end? = none := by
  obtain ⟨o,deep,ho,hr⟩ := parse_recognised (t := t) hw (.opt (.not hp)) (.opt (.not hplain)) i hook
    config hs
  obtain ⟨o',deep',ho',hr'⟩ := parse_recognised (t := t) hw (.not (.opt hp)) (.not (.opt hplain)) i
    hook config hs
  refine ⟨o,o',max deep deep',fun limit hl => ⟨ho limit (by omega),ho' limit (by omega)⟩,?_⟩
  have hopt : (Parser.opt (.not p)).recogniser t i = (p.recogniser.not t i).or (some i) := rfl
  have hnot : (Parser.not (.opt p)).recogniser t i =
      if ((p.recogniser t i).or (some i)).isSome then none else some i := rfl
  rw [hr.end?_eq,hr'.end?_eq,hopt,hnot]
  simp

theorem opt_not_unlike :
    let w : World := ⟨fun _ _ => .error .mismatch,fun _ => .recording none,fun _ => 0⟩
    let a : Parser := leftWords.letter 'a'
    (Parser.opt (.not a)).written = (Parser.not (.opt a)).written ∧
      (Parsing.parse w 3 (.opt (.not a)) "a".toList 0 none none {}).1 =
        .value (.success .none 0 false) ∧
      (Parsing.parse w 3 (.not (.opt a)) "a".toList 0 none none {}).1 =
        .value (.failure 0 (.not (.opt a)) false) := by
  intro w a
  exact ⟨written_opt_not a,rfl,rfl⟩

end Grammar
end Peg
