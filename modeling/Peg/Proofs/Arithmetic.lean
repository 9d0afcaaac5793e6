import Peg.Proofs.Digits
import Peg.Proofs.Ends
import Peg.Proofs.Kinds
import Peg.Samples

/-! The grammar for sums and products, against its language.
The language is given by derivations that also say what number a text stands for, or that it asks
for a quotient by zero.  Main statement: a parse gives that number at the end of the text, or
raises; and it never succeeds on a text that cannot be derived. -/
namespace Peg.Samples.Arithmetic

open Grammar Decimal

/-- Operands with operators between them. -/
inductive Chain
  | products
  | sums

/-- What the grammar is built of. -/
inductive Level
  | factor
  | chain (c : Chain)

/-- The grammar's parser for a level. -/
def Level.parser : Level → Parser
  | factor => Arithmetic.factor none
  | chain .products => Arithmetic.products
  | chain .sums => Arithmetic.sums

namespace Chain

/-- Sums are made of products, and products of factors. -/
def operand : Chain → Level
  | products => .factor
  | sums => .chain .products

def operators : Chain → Text
  | products => "*/".toList
  | sums => "+-".toList

def sign : Chain → Parser
  | products => .capture (.terminal (.named "arithmetic.product sign") (.oneOf "*/".toList))
  | sums => .capture (.terminal (.named "arithmetic.sum sign") (.oneOf "+-".toList))

/-- An operator and an operand. -/
def next : Chain → Parser
  | products => .seq (.named "arithmetic.next factor") [sign products,Arithmetic.factor none]
  | sums => .seq (.named "arithmetic.next product") [sign sums,Arithmetic.products]

def more : Chain → Parser
  | products => .rep (.named "arithmetic.more factors") (next products) 0 none pass
  | sums => .rep (.named "arithmetic.more products") (next sums) 0 none pass

/-- The body of the rule for a chain. -/
def body : Chain → Parser
  | products => productsBody none
  | sums => sumsBody

end Chain

/-! ## The grammar -/

def rules : List RuleId :=
  [.named "arithmetic.parens",.named "arithmetic.products",.named "arithmetic.sums"]

def partsOf : Ident → Option (List Parser)
  | .named "arithmetic.number text" => some [.opt sign,digits]
  | .named "arithmetic.parens body" => some
    [.terminal (.named "arithmetic.open") (.char '('),sums,
      .terminal (.named "arithmetic.close") (.char ')')]
  | .named "arithmetic.products body" => some [factor none,Chain.products.more]
  | .named "arithmetic.next factor" => some [Chain.products.sign,factor none]
  | .named "arithmetic.sums body" => some [products,Chain.sums.more]
  | .named "arithmetic.next product" => some [Chain.sums.sign,products]
  | .named "arithmetic.expression" => some
    [sums,.terminal (.named "arithmetic.end") .finish]
  | _ => none

theorem over_level (l : Level) : l.parser.Over rules partsOf := by
  cases l with
  | factor =>
    have hn : (number none).Over rules partsOf :=
      .map (.capture (.seq rfl (by simp [sign,digits,Parser.Over.opt])))
    have hp : parens.Over rules partsOf := .rule (by decide)
    exact .choice (by simp [hn,hp])
  | chain c => cases c <;> exact .rule (by decide)

theorem over_body (c : Chain) : c.body.Over rules partsOf := by
  have hs : c.sign.Over rules partsOf := by
    cases c <;> exact .capture (Parser.over_terminal _ _)
  have ho := over_level c.operand
  have hn : c.next.Over rules partsOf := by
    cases c <;> exact .seq rfl (List.forall_mem_cons.mpr ⟨hs,List.forall_mem_singleton.mpr ho⟩)
  have hm : c.more.Over rules partsOf := by
    cases c <;> exact .rep hn (Parser.over_terminal _ _)
  cases c <;> exact .map (.seq rfl (List.forall_mem_cons.mpr ⟨ho,List.forall_mem_singleton.mpr hm⟩))

/-- The grammar with its three rules. -/
def grammar : Grammar where
  rules := rules
  body
    | .named name => (body? none name).getD pass
    | .numbered _ => pass
  parts := partsOf
  closed := by
    simp only [rules,List.forall_mem_cons]
    have hp : parensBody.Over rules partsOf := by
      refine .seq rfl ?_
      simp only [List.forall_mem_cons]
      exact ⟨.terminal,over_level (.chain .sums),.terminal,by simp⟩
    exact ⟨hp,over_body .products,over_body .sums,by simp⟩

theorem has_expression : grammar.Has expression := by
  refine .seq rfl ?_
  simp only [List.forall_mem_cons]
  exact ⟨over_level (.chain .sums),.terminal,by simp⟩

theorem supplied : grammar.Supplied (world none) fun _ => 0 := by
  simp only [Grammar.Supplied,grammar,rules,List.forall_mem_cons]
  exact ⟨⟨by simp,rfl⟩,⟨by simp,rfl⟩,⟨by simp,rfl⟩,by simp⟩

theorem isUnit_level (l : Level) : grammar.isUnit l.parser = false := by
  cases l with
  | factor => simp [Level.parser,factor,number]
  | chain c => cases c <;> exact (isUnit_rule _ _).trans (isUnit_map _ _ _ _)

theorem isUnit_sign (c : Chain) : grammar.isUnit c.sign = false := by
  cases c <;> exact isUnit_capture _

theorem isUnit_more (c : Chain) : grammar.isUnit c.more = false := by
  cases c <;> simp [Chain.more,Chain.next,Chain.sign]

/-! ## The language -/

/-- What an operator makes of two numbers, unless it divides by zero; quotients are rounded down. -/
def combine (op : Char) (m n : Int) : Option Int :=
  if op = '+' then some (m + n)
  else if op = '-' then some (m - n)
  else if op = '*' then some (m * n)
  else if n = 0 then none
  else some (m.fdiv n)

/-- A text of a level, and the number that it stands for unless it asks for a quotient by zero. -/
inductive Derives : Level → Text → Option Int → Prop
  | number {u : Text} {n : Int} : Signed u n → Derives .factor u (some n)
  | parens {u : Text} {v : Option Int} :
    Derives (.chain .sums) u v → Derives .factor ('(' :: u ++ [')']) v
  | first {c : Chain} {u : Text} {v : Option Int} : Derives c.operand u v → Derives (.chain c) u v
  | more {c : Chain} {op : Char} {u u' : Text} {v v' : Option Int} :
    op ∈ c.operators → Derives (.chain c) u v → Derives c.operand u' v' →
      Derives (.chain c) (u ++ op :: u') (v.bind fun m => v'.bind fun n => combine op m n)

/-- The number, or else the fault of a quotient by zero. -/
def counted : Option Int → Except Fault Int
  | some n => .ok n
  | none => .error .quotientByZero

/-- How a parser ends that has read a text which stands for a number. -/
def reading (i : Int) (u : Text) : Option Int → Answer Outcome
  | some n => .value (.success (.int n) (i + u.length) false)
  | none => .raised .quotientByZero

theorem apply_combine (op : Char) (m n : Int) :
    apply m (.tuple [.str [op],.int n]) = counted (combine op m n) := by
  simp only [apply,combine,List.cons.injEq,and_true]
  split
  · rfl
  · split
    · rfl
    · split
      · rfl
      · split <;> rfl

variable {t u v rest : Text} {i : Int}

/-! ## Numbers -/

theorem ends_sign {c : Char} (h : At t i (c :: u)) (hc : c ∈ "+-".toList) :
    grammar.Ends t (.opt sign) i (.value (.success .none (i + 1) false)) :=
  .opt (ends_oneOf h hc)

theorem ends_no_sign (h : At t i u) (hc : ∀ c ∈ u.head?, c ∉ "+-".toList) :
    grammar.Ends t (.opt sign) i (.value (.success .none i false)) :=
  Fails.opt (fails_oneOf h hc)

theorem ends_number {s ds : Text} {n : Int} (h : At t i (s ++ (ds ++ rest)))
    (hs : grammar.Ends t (.opt sign) i (.value (.success .none (i + s.length) false)))
    (hne : ds ≠ []) (hd : ∀ c ∈ ds, c.isDigit = true) (hr : ∀ c ∈ rest.head?, c.isDigit = false)
    (hn : Signed (s ++ ds) n) :
    grammar.Ends t (number none) i (reading i (s ++ ds) (some n)) := by
  have hrun : grammar.Ends t digits (i + s.length)
      (.value (.success .none (i + s.length + ds.length) false)) :=
    ends_runOf h.skip (fun c hc => mem_digits_iff.mpr (hd c hc))
      (fun c hc => by rw [mem_digits_iff,hr c hc]; exact Bool.false_ne_true)
      (List.length_pos_iff.mpr hne)
  have hslice : t.slice i (i + s.length + ds.length) = s ++ ds := by
    rw [← List.append_assoc] at h
    have := h.slice
    rwa [List.length_append,Int.natCast_add,← Int.add_assoc] at this
  have hint : Catalogue.toInteger none (.str (s ++ ds)) = .ok (.int n) := by
    simp [Catalogue.toInteger,integer_signed hn]
  have hc : grammar.Ends t (.capture (.seq (.named "arithmetic.number text") [.opt sign,digits])) i
      (.value (.success (.str (s ++ ds)) (i + s.length + ds.length) false)) := by
    rw [← hslice]
    exact .capture (.seq (.skip hs (by simp [sign]) (.skip hrun (by simp [digits]) .nil)))
  rw [reading,List.length_append,Int.natCast_add,← Int.add_assoc]
  exact .map hc hint

theorem fails_number {s : Text} (h : At t i (s ++ rest))
    (hs : grammar.Ends t (.opt sign) i (.value (.success .none (i + s.length) false)))
    (hr : ∀ c ∈ rest.head?, c.isDigit = false) : grammar.Fails t (number none) i false := by
  have hf : grammar.Fails t digits (i + s.length) false :=
    fails_runOf (v := []) h.skip (by simp)
      (fun c hc => by rw [mem_digits_iff,hr c hc]; exact Bool.false_ne_true) (by simp)
  exact .map (.capture (.seq (.skip hs (by simp [sign]) (.here hf))))

/-! ## Chains -/

section Chains

variable {c : Chain} {j : Int}

theorem ends_operator {op : Char} (h : At t i (op :: u)) (ho : op ∈ c.operators) :
    grammar.Ends t c.sign i (.value (.success (.str [op]) (i + 1) false)) := by
  have hs : t.slice i (i + 1) = [op] := At.slice (v := [op]) h
  rw [← hs]
  cases c <;> exact .capture (ends_oneOf h ho)

theorem fails_operator (h : At t i u) (ho : ∀ d ∈ u.head?, d ∉ c.operators) :
    grammar.Fails t c.sign i false := by
  cases c <;> exact Fails.capture (fails_oneOf h ho)

theorem ends_next {a : Answer Outcome}
    (h : grammar.EndsSeq t [c.sign,c.operand.parser] [] false i a) : grammar.Ends t c.next i a := by
  cases c <;> exact .seq h

theorem fails_next (h : grammar.FailsSeq t [c.sign,c.operand.parser] [] false i false) :
    grammar.Fails t c.next i false := by
  cases c <;> exact Fails.seq h

theorem ends_more {tally : Tally}
    (h : grammar.EndsRounds t c.next pass 0 none ⟨[],0,false,i⟩ (.value tally)) :
    grammar.Ends t c.more i
      (.value (.success (.list tally.values.reverse) tally.stop tally.cut)) := by
  cases c <;> exact .rep h (Nat.zero_le _)

theorem ends_more_raised {fault : Fault}
    (h : grammar.EndsRounds t c.next pass 0 none ⟨[],0,false,i⟩ (.raised fault)) :
    grammar.Ends t c.more i (.raised fault) := by
  cases c <;> exact .rep_raised h

/-- A chain whose operands and operators have been read is evaluated. -/
theorem ends_chain {first : Int} {values : List Value} {v : Option Int} {u : Text}
    (h : grammar.EndsSeq t [c.operand.parser,c.more] [] false i
      (.value (.success (.tuple [.int first,.list values]) (i + u.length) false)))
    (hv : values.foldlM apply first = counted v) :
    grammar.Ends t (Level.chain c).parser i (reading i u v) := by
  have he : Catalogue.spread evaluate (.tuple [.int first,.list values]) =
      (counted v).map .int := by
    simp only [Catalogue.spread,Value.items?,evaluate,hv]
  cases v with
  | some n => cases c <;> exact .rule (.map (.seq h) he)
  | none => cases c <;> exact .rule (.map_error (.seq h) he)

theorem ends_chain_raised {fault : Fault}
    (h : grammar.EndsSeq t [c.operand.parser,c.more] [] false i (.raised fault)) :
    grammar.Ends t (Level.chain c).parser i (.raised fault) := by
  cases c <;> exact .rule (.map_raised (.seq h))

theorem fails_chain (h : grammar.Fails t c.operand.parser i false) :
    grammar.Fails t (Level.chain c).parser i false := by
  cases c <;> exact Fails.rule (.map (.seq (.here h)))

end Chains

/-- What the rounds of a chain have gathered when this text has been read from here. -/
def gathered (i : Int) (u : Text) (values : List Value) : Tally :=
  ⟨values,values.length,false,i + u.length⟩

section Rounds

variable {c : Chain} {op : Char} {u' : Text} {values : List Value} {n : Int}

/-- An operator and an operand make one more round. -/
theorem rounds_more {r : Answer Tally} (hop : op ∈ c.operators)
    (hat : At t i (u ++ op :: (u' ++ rest)))
    (h : grammar.Ends t c.operand.parser (i + u.length + 1)
      (reading (i + u.length + 1) u' (some n)))
    (hr : grammar.EndsRounds t c.next pass 0 none
      (gathered i (u ++ op :: u') (.tuple [.str [op],.int n] :: values)) r) :
    grammar.EndsRounds t c.next pass 0 none (gathered i u values) r := by
  have hs := ends_operator (c := c) hat.skip hop
  have hn : grammar.Ends t c.next (gathered i u values).stop
      (.value (.success (.tuple [.str [op],.int n]) (i + u.length + 1 + u'.length) false)) :=
    ends_next (.keep hs (isUnit_sign c) (.keep h (isUnit_level _) .nil))
  have hlen := hat.add_length
  simp only [List.length_append,List.length_cons] at hlen
  have hstop : i + u.length + 1 + u'.length = i + (u ++ op :: u').length := by
    simp only [List.length_append,List.length_cons]
    omega
  refine .more rfl .pass hn ?_ (by omega) ?_
  · simp only [gathered]
    omega
  · rw [hstop]
    exact hr

theorem rounds_raise (hop : op ∈ c.operators) (hat : At t i (u ++ op :: rest))
    (h : grammar.Ends t c.operand.parser (i + u.length + 1) (.raised .quotientByZero)) :
    grammar.EndsRounds t c.next pass 0 none (gathered i u values) (.raised .quotientByZero) :=
  .raise rfl .pass (ends_next (.keep (ends_operator hat.skip hop) (isUnit_sign c) (.raise h)))

theorem rounds_end (h : grammar.FailsSeq t [c.sign,c.operand.parser] [] false (i + u.length) false) :
    grammar.EndsRounds t c.next pass 0 none (gathered i u values) (.value (gathered i u values)) :=
  .noElement rfl .pass (fails_next h)

theorem total_more {first : Int} {v : Option Int}
    (hv : values.reverse.foldlM apply first = counted v) :
    (Value.tuple [.str [op],.int n] :: values).reverse.foldlM apply first =
      counted (v.bind fun m => combine op m n) := by
  rw [List.reverse_cons,List.foldlM_append,hv]
  cases v with
  | none => rfl
  | some m =>
    change (apply m (.tuple [.str [op],.int n]) >>= pure) = _
    rw [bind_pure,apply_combine]
    rfl

end Rounds

/-- Operands and operators are read up to the end of a text, on the way to whatever the rounds of
the chain end with; or else one of the operands raises. -/
def Loops (c : Chain) (t : Text) (i : Int) (u : Text) (v : Option Int) : Prop :=
  v = none ∧ grammar.Ends t (Level.chain c).parser i (.raised .quotientByZero) ∨
    ∃ w first values, grammar.Ends t c.operand.parser i (reading i w (some first)) ∧
      values.reverse.foldlM apply first = counted v ∧
      ∀ r, grammar.EndsRounds t c.next pass 0 none (gathered i u values) r →
        grammar.EndsRounds t c.next pass 0 none (gathered i w []) r

theorem Loops.first {c : Chain} {v : Option Int}
    (h : grammar.Ends t c.operand.parser i (reading i u v)) : Loops c t i u v := by
  cases v with
  | none => exact Or.inl ⟨rfl,ends_chain_raised (.raise h)⟩
  | some n => exact Or.inr ⟨u,n,[],h,rfl,fun _ hr => hr⟩

/-- One more operator and operand. -/
theorem Loops.more {c : Chain} {v w : Option Int} {op : Char} {u' : Text} (hl : Loops c t i u v)
    (hop : op ∈ c.operators) (hat : At t i (u ++ op :: (u' ++ rest)))
    (h : grammar.Ends t c.operand.parser (i + u.length + 1) (reading (i + u.length + 1) u' w)) :
    Loops c t i (u ++ op :: u') (v.bind fun m => w.bind fun n => combine op m n) := by
  obtain ⟨rfl,hr⟩ | ⟨u₀,first,values,hf,hv,hr⟩ := hl
  · exact Or.inl ⟨rfl,hr⟩
  · cases w with
    | none =>
      have hm := ends_more_raised (hr _ (rounds_raise hop hat h))
      refine Or.inl ⟨by cases v <;> rfl,ends_chain_raised ?_⟩
      exact .keep hf (isUnit_level _) (.raise hm)
    | some n => exact Or.inr ⟨u₀,first,_,hf,total_more hv,fun r h' => hr r (rounds_more hop hat h h')⟩

/-! ## Derivable texts are read -/

/-- The characters that may go on with a text of a level. -/
def Level.continuing : Level → Text
  | factor => "0123456789".toList
  | chain .products => "0123456789*/".toList
  | chain .sums => "0123456789*/+-".toList

theorem operators_not_continuing (c : Chain) :
    ∀ d ∈ c.operators, d ∉ c.operand.continuing := by
  cases c <;> exact forall_mem_of_all (by decide)

theorem operators_continuing (c : Chain) : ∀ d ∈ c.operators, d ∈ (Level.chain c).continuing := by
  cases c <;> exact forall_mem_of_all (by decide)

theorem operand_continuing (c : Chain) :
    ∀ d ∈ c.operand.continuing, d ∈ (Level.chain c).continuing := by
  cases c <;> exact forall_mem_of_all (by decide)

/-- At the end of a chain its rounds end, and it is evaluated. -/
theorem Loops.ends {c : Chain} {v : Option Int} (h : Loops c t i u v) (hat : At t i (u ++ rest))
    (hr : ∀ d ∈ rest.head?, d ∉ c.operators) :
    grammar.Ends t (Level.chain c).parser i (reading i u v) := by
  obtain ⟨rfl,h⟩ | ⟨w,first,values,hf,hv,h⟩ := h
  · exact h
  · have hn : grammar.Fails t c.next (gathered i u values).stop false :=
      fails_next (.here (fails_operator hat.skip hr))
    have hm := ends_more (h _ (.noElement rfl .pass hn))
    exact ends_chain (.keep hf (isUnit_level _) (.keep hm (isUnit_more c) .nil)) hv

/-- A text of a level is read, wherever it stands and whatever follows that does not go on with
it. -/
def Reads (l : Level) (u : Text) (v : Option Int) : Prop :=
  ∀ t i rest, At t i (u ++ rest) → (∀ d ∈ rest.head?, d ∉ l.continuing) →
    grammar.Ends t l.parser i (reading i u v)

theorem reads_number {u : Text} {n : Int} (h : Signed u n) : Reads .factor u (some n) := by
  intro t i rest hat hr
  have hr' : ∀ d ∈ rest.head?, d.isDigit = false := fun d hd =>
    Bool.eq_false_iff.mpr fun hc => hr d hd (mem_digits_iff.mpr hc)
  have hn : grammar.Ends t (number none) i (reading i u (some n)) := by
    cases h with
    | plain hne hd =>
      have hns : ∀ c ∈ (u ++ rest).head?, c ∉ "+-".toList := by
        cases u with
        | nil => exact absurd rfl hne
        | cons c u => simpa using not_sign_of_isDigit (hd c (by simp))
      exact ends_number (s := []) hat (by simpa using ends_no_sign hat hns) hne hd hr' (.plain hne hd)
    | @plus ds hne hd =>
      exact ends_number (s := ['+']) hat (ends_sign hat (by decide)) hne hd hr' (.plus hne hd)
    | @minus ds hne hd =>
      exact ends_number (s := ['-']) hat (ends_sign hat (by decide)) hne hd hr' (.minus hne hd)
  exact .choice (.here hn)

theorem fails_number_paren (h : At t i ('(' :: u)) : grammar.Fails t (number none) i false :=
  fails_number (s := []) h (by simpa using ends_no_sign h (by simp)) (by simp)

theorem ends_parens {n : Int} (h : At t i ('(' :: (u ++ ')' :: rest)))
    (hs : grammar.Ends t sums (i + 1) (reading (i + 1) u (some n))) :
    grammar.Ends t (factor none) i (reading i ('(' :: u ++ [')']) (some n)) := by
  have hclose : At t (i + 1 + u.length) (')' :: rest) := h.next.skip
  have hp : grammar.Ends t parens i (.value (.success (.int n) (i + 1 + u.length + 1) false)) := by
    refine .rule (.seq (.skip (ends_char h) (by simp) ?_))
    exact .keep hs (isUnit_level (.chain .sums)) (.skip (ends_char hclose) (by simp) .nil)
  have hi : i + 1 + u.length + 1 = i + ('(' :: u ++ [')']).length := by
    simp only [List.cons_append,List.length_cons,List.length_append,List.length_nil]
    omega
  rw [reading,← hi]
  exact .choice (.there (fails_number_paren h) (.here hp))

theorem ends_parens_raised {fault : Fault} (h : At t i ('(' :: u))
    (hs : grammar.Ends t sums (i + 1) (.raised fault)) :
    grammar.Ends t (factor none) i (.raised fault) := by
  have hp : grammar.Ends t parens i (.raised fault) :=
    .rule (.seq (.skip (ends_char h) (by simp) (.raise hs)))
  exact .choice (.there (fails_number_paren h) (.raise hp))

theorem reads_parens {u : Text} {v : Option Int} (h : Reads (.chain .sums) u v) :
    Reads .factor ('(' :: u ++ [')']) v := by
  intro t i rest hat _
  have ho : At t i ('(' :: (u ++ (')' :: rest))) := by simpa using hat
  have hs := h t (i + 1) (')' :: rest) ho.next (by simp; decide)
  cases v with
  | none => exact ends_parens_raised ho hs
  | some n => exact ends_parens ho hs

/-- What is shown of a derivable text: a factor is read, and so are the operands of a chain. -/
def Readable : Level → Text → Option Int → Prop
  | .factor, u, v => Reads .factor u v
  | .chain c, u, v => ∀ t i rest, At t i (u ++ rest) →
    (∀ d ∈ rest.head?, d ∉ c.operand.continuing) → Loops c t i u v

theorem Readable.reads {l : Level} {u : Text} {v : Option Int} (h : Readable l u v) :
    Reads l u v := by
  cases l with
  | factor => exact h
  | chain c =>
    intro t i rest hat hr
    refine (h t i rest hat fun d hd hc => hr d hd (operand_continuing c d hc)).ends hat ?_
    exact fun d hd hc => hr d hd (operators_continuing c d hc)

theorem Derives.readable {l : Level} {u : Text} {v : Option Int} (h : Derives l u v) :
    Readable l u v := by
  induction h with
  | number h => exact reads_number h
  | parens _ ih => exact reads_parens ih.reads
  | first _ ih => exact fun t i rest hat hr => .first (ih.reads t i rest hat hr)
  | @more c op u u' v v' hop _ _ ih ih' =>
    intro t i rest hat hr
    have hat' : At t i (u ++ op :: (u' ++ rest)) := by simpa using hat
    have hl := ih t i _ hat' (by simpa using operators_not_continuing c op hop)
    exact hl.more hop hat' (ih'.reads t _ rest hat'.skip.next hr)

/-! ## Nothing else is read -/

/-- At a place a level raises, fails, or reads some text that is derivable. -/
def Answers (l : Level) (t : Text) (i : Int) (u : Text) : Prop :=
  grammar.Ends t l.parser i (.raised .quotientByZero) ∨ grammar.Fails t l.parser i false ∨
    ∃ w rest n, u = w ++ rest ∧ Derives l w (some n) ∧ grammar.Ends t l.parser i (reading i w (some n))

theorem answers_number (h : At t i u) : grammar.Fails t (number none) i false ∨
    ∃ w rest n, u = w ++ rest ∧ Signed w n ∧
      grammar.Ends t (number none) i (reading i w (some n)) := by
  obtain ⟨s,r,rfl,hs,hsign⟩ : ∃ s r, u = s ++ r ∧
      grammar.Ends t (.opt sign) i (.value (.success .none (i + s.length) false)) ∧
      (s = [] ∨ s = ['+'] ∨ s = ['-']) := by
    cases u with
    | nil => exact ⟨[],[],rfl,by simpa using ends_no_sign h (by simp),Or.inl rfl⟩
    | cons c u =>
      by_cases hc : c ∈ "+-".toList
      · refine ⟨[c],u,rfl,ends_sign h hc,Or.inr ?_⟩
        simpa using hc
      · exact ⟨[],c :: u,rfl,by simpa using ends_no_sign h (by simpa using hc),Or.inl rfl⟩
  obtain ⟨ds,rest,rfl,hd,hrest⟩ := exists_run Char.isDigit r
  by_cases hne : ds = []
  · subst hne
    exact Or.inl (fails_number h hs hrest)
  · obtain ⟨n,hn⟩ : ∃ n, Signed (s ++ ds) n := by
      rcases hsign with rfl | rfl | rfl
      · exact ⟨_,.plain hne hd⟩
      · exact ⟨_,.plus hne hd⟩
      · exact ⟨_,.minus hne hd⟩
    exact Or.inr ⟨s ++ ds,rest,n,by simp,hn,ends_number h hs hne hd hrest hn⟩

theorem fails_parens_char (h : At t i u) (hc : ∀ c ∈ u.head?, c ≠ '(') :
    grammar.Fails t parens i false :=
  .rule (.seq (.here (fails_char h hc)))

theorem fails_parens_inner (h : At t i ('(' :: u)) (hs : grammar.Fails t sums (i + 1) false) :
    grammar.Fails t parens i false :=
  .rule (.seq (.skip (ends_char h) (by simp) (.here hs)))

theorem fails_parens_close {n : Int} (h : At t i ('(' :: (u ++ rest)))
    (hs : grammar.Ends t sums (i + 1) (reading (i + 1) u (some n)))
    (hc : ∀ c ∈ rest.head?, c ≠ ')') : grammar.Fails t parens i false :=
  .rule (.seq (.skip (ends_char h) (by simp)
    (.keep hs (isUnit_level (.chain .sums)) (.here (fails_char h.next.skip hc)))))

theorem fails_factor (hn : grammar.Fails t (number none) i false)
    (hp : grammar.Fails t parens i false) : grammar.Fails t (factor none) i false :=
  Fails.choice (.there hn (.there hp .nil))

theorem answers_factor (h : At t i u)
    (hs : ∀ u', u'.length < u.length → At t (i + 1) u' → Answers (.chain .sums) t (i + 1) u') :
    Answers .factor t i u := by
  rcases answers_number h with hn | ⟨w,rest,n,rfl,hw,hn⟩
  · rcases head_ne_or_cons '(' u with hc | ⟨u,rfl⟩
    · exact Or.inr (Or.inl (fails_factor hn (fails_parens_char h hc)))
    · rcases hs u (by simp) h.next with hr | hf | ⟨w,rest,n,rfl,hw,hr⟩
      · exact Or.inl (ends_parens_raised h hr)
      · exact Or.inr (Or.inl (fails_factor hn (fails_parens_inner h hf)))
      · rcases head_ne_or_cons ')' rest with hc | ⟨rest,rfl⟩
        · exact Or.inr (Or.inl (fails_factor hn (fails_parens_close h hr hc)))
        · exact Or.inr (Or.inr ⟨_,rest,n,by simp,.parens hw,ends_parens h hr⟩)
  · exact Or.inr (Or.inr ⟨w,rest,n,rfl,.number hw,.choice (.here hn)⟩)

/-- However many operators and operands follow, the rounds of a chain raise or read some of them. -/
theorem answers_rounds {c : Chain} {values : List Value} {first : Int} {v : Option Int}
    (ho : ∀ j u', u'.length ≤ rest.length → At t j u' → Answers c.operand t j u')
    (h : At t i (u ++ rest)) (hu : Derives (.chain c) u v)
    (hv : values.reverse.foldlM apply first = counted v) :
    grammar.EndsRounds t c.next pass 0 none (gathered i u values) (.raised .quotientByZero) ∨
      ∃ w rest' values' v', u ++ rest = w ++ rest' ∧ Derives (.chain c) w v' ∧
        values'.reverse.foldlM apply first = counted v' ∧
        grammar.EndsRounds t c.next pass 0 none (gathered i u values)
          (.value (gathered i w values')) := by
  induction hn : rest.length using Nat.strongRecOn generalizing rest u v values with
  | ind n ih =>
    by_cases hop : ∃ op r, rest = op :: r ∧ op ∈ c.operators
    · obtain ⟨op,r,rfl,hop⟩ := hop
      have hs := ends_operator (c := c) h.skip hop
      rcases ho _ r (by simp) h.skip.next with hr | hf | ⟨w,r',m,rfl,hw,hr⟩
      · exact Or.inl (rounds_raise hop h hr)
      · exact Or.inr ⟨u,_,values,v,rfl,hu,hv,rounds_end (.keep hs (isUnit_sign c) (.here hf))⟩
      · have hle : r'.length < n := by
          rw [← hn]
          simp only [List.length_cons,List.length_append]
          omega
        have h' : At t i ((u ++ op :: w) ++ r') := by simpa using h
        rcases ih _ hle (fun j u' hu' => ho j u' (by rw [hn]; omega)) h' (.more hop hu hw)
          (total_more hv) rfl with hr' | ⟨w',r'',values',v',he,hw',hv',hr'⟩
        · exact Or.inl (rounds_more hop h hr hr')
        · exact Or.inr ⟨w',r'',values',v',by simpa using he,hw',hv',rounds_more hop h hr hr'⟩
    · refine Or.inr ⟨u,rest,values,v,rfl,hu,hv,rounds_end (.here (fails_operator h.skip ?_))⟩
      intro d hd hc
      cases rest with
      | nil => cases hd
      | cons e r =>
        cases hd
        exact hop ⟨_,r,rfl,hc⟩

theorem answers_chain {c : Chain}
    (ho : ∀ j u', u'.length ≤ u.length → At t j u' → Answers c.operand t j u') (h : At t i u) :
    Answers (.chain c) t i u := by
  rcases ho i u (Nat.le_refl _) h with hr | hf | ⟨w,rest,n,rfl,hw,hr⟩
  · exact Or.inl (ends_chain_raised (.raise hr))
  · exact Or.inr (Or.inl (fails_chain hf))
  · have ho' : ∀ j u', u'.length ≤ rest.length → At t j u' → Answers c.operand t j u' :=
      fun j u' hu' => ho j u' (by rw [List.length_append]; omega)
    have hv₀ : ([] : List Value).reverse.foldlM apply n = counted (some n) := rfl
    rcases answers_rounds ho' h (.first hw) hv₀ with hm | ⟨w',rest',values,v,he,hw',hv,hm⟩
    · exact Or.inl (ends_chain_raised (.keep hr (isUnit_level _) (.raise (ends_more_raised hm))))
    · have hc := ends_chain (.keep hr (isUnit_level _) (.keep (ends_more hm) (isUnit_more c) .nil)) hv
      cases v with
      | none => exact Or.inl hc
      | some n => exact Or.inr (Or.inr ⟨w',rest',n,he,hw',hc⟩)

theorem answers (l : Level) (h : At t i u) : Answers l t i u := by
  induction hn : u.length using Nat.strongRecOn generalizing i u l with
  | ind n ih =>
    have hf (j : Int) (u' : Text) (hu' : u'.length ≤ u.length) (h' : At t j u') :
        Answers .factor t j u' :=
      answers_factor h' fun u'' hu'' h'' => ih _ (by omega) _ h'' rfl
    have hp (j : Int) (u' : Text) (hu' : u'.length ≤ u.length) (h' : At t j u') :
        Answers (.chain .products) t j u' :=
      answers_chain (fun k u'' hu'' => hf k u'' (by omega)) h'
    match l with
    | .factor => exact hf i u (Nat.le_refl _) h
    | .chain .products => exact hp i u (Nat.le_refl _) h
    | .chain .sums => exact answers_chain (fun k u'' hu'' => hp k u'' (by omega)) h

/-! ## Parsing -/

theorem ends_expression {n : Int} (h : grammar.Ends t sums 0 (reading 0 t (some n))) :
    grammar.Ends t expression 0 (.value (.success (.int n) t.length false)) := by
  have hat : At t (0 + t.length) [] := At.skip (by simpa using At.start t)
  have hs : grammar.EndsSeq t [sums,.terminal (.named "arithmetic.end") .finish] [] false 0
      (.value (.success (.int n) (0 + t.length) false)) :=
    .keep h (isUnit_level (.chain .sums)) (.skip (ends_finish hat) (by simp) .nil)
  rw [Int.zero_add] at hs
  exact .seq hs

theorem ends_expression_raised {fault : Fault} (h : grammar.Ends t sums 0 (.raised fault)) :
    grammar.Ends t expression 0 (.raised fault) :=
  .seq (.raise h)

theorem Derives.ends_expression {v : Option Int} (h : Derives (.chain .sums) t v) :
    grammar.Ends t expression 0 (match v with
      | some n => .value (.success (.int n) t.length false)
      | none => .raised .quotientByZero) := by
  have hr := h.readable.reads t 0 [] (by simpa using At.start t) (by simp)
  cases v with
  | some n => exact Arithmetic.ends_expression hr
  | none => exact ends_expression_raised hr

theorem answers_expression (t : Text) :
    grammar.Ends t expression 0 (.raised .quotientByZero) ∨
      grammar.Fails t expression 0 false ∨
      ∃ n, Derives (.chain .sums) t (some n) ∧
        grammar.Ends t expression 0 (.value (.success (.int n) t.length false)) := by
  rcases answers (.chain .sums) (At.start t) with hr | hf | ⟨w,rest,n,he,hw,hr⟩
  · exact Or.inl (ends_expression_raised hr)
  · exact Or.inr (Or.inl (.seq (.here hf)))
  · cases rest with
    | nil =>
      obtain rfl : t = w := by simpa using he
      exact Or.inr (Or.inr ⟨n,hw,ends_expression hr⟩)
    | cons c rest =>
      have hat : At t (0 + w.length) (c :: rest) := At.skip (he ▸ At.start t)
      refine Or.inr (Or.inl (.seq ?_))
      exact .keep hr (isUnit_level (.chain .sums)) (.here (fails_finish hat))

theorem calm (hook : HookId) : ((world none).hook hook).Calm := HookKind.calm_lines _ _

/-- A text that is derivable as a sum parses to the number that it stands for, up to its end, or
raises when it asks for a quotient by zero.  Any other text fails to parse or raises.  This holds
whatever the grammar was used for before. -/
theorem parse_expression (t : Text) (hook : Option HookId) (config : Option Config) (xs : List Use)
    (hx : ∀ x ∈ xs, grammar.Has x.parser) :
    ∃ deep, ∀ limit ≥ deep,
      let a := (Parsing.parse (world none) limit expression t 0 hook config
        (xs.foldl (Use.perform (world none)) {})).1
      (∀ n, Derives (.chain .sums) t (some n) → a = .value (.success (.int n) t.length false)) ∧
      (Derives (.chain .sums) t none → a = .raised .quotientByZero) ∧
      ((∀ v, ¬ Derives (.chain .sums) t v) →
        (∃ j cause cut, a = .value (.failure j cause cut)) ∨ a = .raised .quotientByZero) := by
  have hs : grammar.Settled (fun _ => 0) (xs.foldl (Use.perform (world none)) {}).memory :=
    performAll_settled supplied hx (settled_new grammar _)
  obtain ⟨a,ha,hne,hk⟩ : ∃ a, grammar.Ends t expression 0 a ∧ a ≠ .exhausted ∧
      ((∀ v, ¬ Derives (.chain .sums) t v) →
        (∃ j cause cut, a = .value (.failure j cause cut)) ∨ a = .raised .quotientByZero) := by
    rcases answers_expression t with hr | ⟨j,cause,hf⟩ | ⟨n,hn,he⟩
    · exact ⟨_,hr,by simp,fun _ => Or.inr rfl⟩
    · exact ⟨_,hf,by simp,fun _ => Or.inl ⟨j,cause,false,rfl⟩⟩
    · exact ⟨_,he,by simp,fun h => absurd hn (h _)⟩
  obtain ⟨deep,hp⟩ := ha.parse has_expression hne supplied calm hook config _ hs
  refine ⟨deep,fun limit hl => ?_⟩
  rw [hp limit hl]
  exact ⟨fun n hn => ha.unique hn.ends_expression,fun hn => ha.unique hn.ends_expression,hk⟩

/-- A quotient by zero in the middle of a text, after an unfinished text was parsed. -/
theorem parse_quotient_by_zero :
    ∃ deep, ∀ limit ≥ deep,
      (Parsing.parse (world none) limit expression "7/(1-1)*2".toList 0 none none
        ([Use.parse 50 expression "1+".toList 0 none none].foldl (Use.perform (world none)) {})).1 =
        .raised .quotientByZero := by
  have number (c : Char) (hc : c.isDigit = true) : Derives .factor [c] (some (digitsValue [c])) :=
    .number (.plain (by simp) (by simpa using hc))
  have minus : '-' ∈ Chain.sums.operators := by decide
  have divided : '/' ∈ Chain.products.operators := by decide
  have times : '*' ∈ Chain.products.operators := by decide
  have hsum : Derives (.chain .sums) "1-1".toList (some 0) :=
    .more minus (.first (.first (number '1' rfl))) (.first (number '1' rfl))
  have hover : Derives (.chain .products) "7/(1-1)".toList none :=
    .more divided (.first (number '7' rfl)) (.parens hsum)
  have hproduct : Derives (.chain .sums) "7/(1-1)*2".toList none :=
    .first (.more times hover (number '2' rfl))
  obtain ⟨deep,h⟩ := parse_expression "7/(1-1)*2".toList none none
    [.parse 50 expression "1+".toList 0 none none] (by simpa [Use.parser] using has_expression)
  exact ⟨deep,fun limit hl => (h limit hl).2.1 hproduct⟩

end Peg.Samples.Arithmetic
