import Peg.Proofs.Json.Numbers
import Peg.Proofs.Json.Strings
import Peg.Samples

/-! The grammar for JSON texts, and how its values are read.
A value is decided by its first character.  Main statements: a kind of value fails where it does
not begin, and how a group, a value with blanks around it, and a member end once what they are made
of has been read. -/
namespace Peg.Samples.Json

open Grammar

/-- What has brackets around it. -/
inductive Group
  | array
  | object

namespace Group

def element : Group → Parser
  | array => value
  | object => pair

def comma : Group → Parser
  | array => char "json.item comma" ','
  | object => char "json.pair comma" ','

/-- Any number of elements with commas between them. -/
def elements : Group → Parser
  | array => .rep (.named "json.items") value 0 none (comma array)
  | object => .rep (.named "json.pairs") pair 0 none (comma object)

def opening : Group → Char
  | array => '['
  | object => '\x7b'

def closing : Group → Char
  | array => ']'
  | object => '\x7d'

def openingParser : Group → Parser
  | array => .cut (char "json.opening bracket" '[')
  | object => .cut (char "json.opening brace" '\x7b')

def closingParser : Group → Parser
  | array => char "json.closing bracket" ']'
  | object => char "json.closing brace" '\x7d'

def parts (g : Group) : List Parser := [openingParser g,elements g,space,closingParser g]

/-- What is made of the values of the elements. -/
def build : Group → Value → Except Fault Value
  | array => toList
  | object => toDict

def parser : Group → Parser
  | array => Json.array
  | object => Json.object

end Group

/-! ## The grammar -/

def rules : List RuleId := [.named "json.value"]

def partsOf : Ident → Option (List Parser)
  | .named "json.whole" => some
    [.terminal (.named "json.first digit") (.oneOf "123456789".toList),
      .terminal (.named "json.more digits") (.runOf "0123456789".toList 0)]
  | .named "json.fraction" => some fractional.children
  | .named "json.exponent" => some exponent.children
  | .named "json.number text" => some
    [.opt (char "json.minus" '-'),integral,.opt fractional,.opt exponent]
  | .named "json.unicode escape" => some unicodeEscape.children
  | .named "json.simple escape" => some simpleEscape.children
  | .named "json.string" => some quoted
  | .named "json.array body" => some (Group.parts .array)
  | .named "json.pair" => some pair.children
  | .named "json.object body" => some (Group.parts .object)
  | .named "json.value body" => some valueBody.children
  | .named "json.document" => some document.children
  | _ => none

theorem over_number : number.Over rules partsOf := by
  have hwhole : integral.Over rules partsOf := by
    refine .choice (List.forall_mem_cons.mpr ⟨.terminal,List.forall_mem_singleton.mpr ?_⟩)
    exact .seq rfl (by simp)
  have hfraction : fractional.Over rules partsOf := .seq rfl (by simp [char,digits])
  have hexponent : exponent.Over rules partsOf := .seq rfl (by simp [digits,Parser.Over.opt])
  refine .map (.capture (.seq rfl ?_))
  simp only [List.forall_mem_cons]
  exact ⟨.opt .terminal,hwhole,.opt hfraction,.opt hexponent,by simp⟩

theorem over_stringParts : stringParts.Over rules partsOf := by
  have hunicode : unicodeEscape.Over rules partsOf := by
    refine .seq rfl (List.forall_mem_cons.mpr ⟨.terminal,List.forall_mem_singleton.mpr ?_⟩)
    exact .map (.capture (.rep .terminal .terminal))
  have hsimple : simpleEscape.Over rules partsOf := by
    refine .seq rfl (List.forall_mem_cons.mpr ⟨.terminal,List.forall_mem_singleton.mpr ?_⟩)
    exact .map (.capture .terminal)
  refine .map (.rep (.choice ?_) .terminal)
  simp only [List.forall_mem_cons]
  exact ⟨.capture .terminal,hunicode,hsimple,by simp⟩

theorem over_value : value.Over rules partsOf := .rule (by decide)

theorem over_pair : pair.Over rules partsOf := by
  refine .seq rfl ?_
  simp only [List.forall_mem_cons]
  exact ⟨.terminal,.terminal,over_stringParts,.terminal,.terminal,.terminal,over_value,by simp⟩

theorem over_string : string.Over rules partsOf := by
  refine .seq rfl ?_
  simp only [List.forall_mem_cons]
  exact ⟨.terminal,.terminal,over_stringParts,.terminal,by simp⟩

theorem over_group (g : Group) : g.parser.Over rules partsOf := by
  have hopening : g.openingParser.Over rules partsOf := by
    cases g <;> exact .cut .terminal
  have hclosing : g.closingParser.Over rules partsOf := by
    cases g <;> exact .terminal
  have helements : g.elements.Over rules partsOf := by
    cases g with
    | array => exact .rep over_value .terminal
    | object => exact .rep over_pair .terminal
  have hparts : ∀ p ∈ g.parts, p.Over rules partsOf := by
    simp only [Group.parts,List.forall_mem_cons]
    exact ⟨hopening,helements,.terminal,hclosing,by simp⟩
  cases g with
  | array => exact .map (.seq rfl hparts)
  | object => exact .map (.seq rfl hparts)

theorem over_valueBody : valueBody.Over rules partsOf := by
  have hconstant (name : String) (word : Text) (v : Value) :
      (constant name word v).Over rules partsOf := .map .terminal
  refine .seq rfl ?_
  simp only [List.forall_mem_cons]
  refine ⟨.terminal,.choice ?_,.terminal,by simp⟩
  simp only [List.forall_mem_cons]
  exact ⟨over_group .object,over_group .array,over_string,hconstant _ _ _,hconstant _ _ _,
    hconstant _ _ _,over_number,by simp⟩

/-- The grammar with its one rule. -/
def grammar : Grammar where
  rules := rules
  body
    | .named name => (body? name).getD pass
    | .numbered _ => pass
  parts := partsOf
  closed := by
    simp only [rules,List.forall_mem_cons]
    exact ⟨over_valueBody,by simp⟩

theorem has_document : grammar.Has document := by
  refine .seq rfl ?_
  simp only [List.forall_mem_cons]
  exact ⟨over_value,.terminal,by simp⟩

theorem supplied : grammar.Supplied (world none) fun _ => 0 := by
  simp only [Grammar.Supplied,grammar,rules,List.forall_mem_cons]
  exact ⟨⟨by simp,rfl⟩,by simp⟩

theorem isUnit_value : grammar.isUnit value = false := by
  rw [value,isUnit_rule]
  change grammar.isUnit valueBody = false
  simp [valueBody,object]

theorem isUnit_opening (g : Group) : grammar.isUnit g.openingParser = true := by
  cases g <;> simp [Group.openingParser,char]

theorem isUnit_closing (g : Group) : grammar.isUnit g.closingParser = true := by
  cases g <;> exact isUnit_terminal _ _

theorem isUnit_element (g : Group) : grammar.isUnit g.element = false := by
  cases g with
  | array => exact isUnit_value
  | object => simp [Group.element,pair,stringParts]

theorem isUnit_elements (g : Group) : grammar.isUnit g.elements = false := by
  have h := isUnit_element g
  cases g with
  | array => exact (isUnit_rep _ _ _ _ _).trans h
  | object => exact (isUnit_rep _ _ _ _ _).trans h

/-! ## Elements of a group -/

/-- What is made of a member. -/
def entry (e : Text × Value) : Value := .tuple [.str e.1,e.2]

namespace Group

/-- A text that is an element of a group, and what is made of it. -/
def Element : Group → Text → Value → Prop
  | array, u, v => Derives u (.padded v)
  | object, u, v => ∃ key w, v = entry (key,w) ∧ Derives u (.member key w)

/-- One or more elements with commas between them. -/
def Elements : Group → Text → List Value → Prop
  | array, u, vs => Derives u (.items vs)
  | object, u, vs => ∃ es : List (Text × Value), vs = es.map entry ∧ Derives u (.members es)

variable {g : Group} {u u' b : Text} {v : Value} {vs : List Value}

theorem Elements.one (h : g.Element u v) : g.Elements u [v] := by
  cases g with
  | array => exact .item h
  | object =>
    obtain ⟨key,w,rfl,h⟩ := h
    exact ⟨[(key,w)],rfl,.firstMember h⟩

theorem Elements.next (h : g.Elements u vs) (h' : g.Element u' v) :
    g.Elements (u ++ ',' :: u') (vs ++ [v]) := by
  cases g with
  | array => exact .nextItem h h'
  | object =>
    obtain ⟨es,rfl,h⟩ := h
    obtain ⟨key,w,rfl,h'⟩ := h'
    exact ⟨es ++ [(key,w)],by simp,.nextMember h h'⟩

theorem mapM_entries (es : List (Text × Value)) : (es.map entry).mapM entry? = some es := by
  induction es with
  | nil => rfl
  | cons e es ih => simp [entry, entry?,ih]

theorem toDict_entries (es : List (Text × Value)) :
    toDict (.list (es.map entry)) = .ok (.dict (Value.dictOf es)) := by
  simp only [toDict,Catalogue.partly,mapM_entries,Option.map_some]

/-- Brackets around blanks make an empty group. -/
theorem build_nil (g : Group) (hb : Blank b) :
    ∃ w, g.build (.list []) = .ok w ∧ Derives (g.opening :: (b ++ [g.closing])) (.value w) := by
  cases g with
  | array => exact ⟨_,rfl,.emptyArray hb⟩
  | object => exact ⟨_,rfl,.emptyObject hb⟩

/-- Brackets around elements make a group of them. -/
theorem build_elements (h : g.Elements u vs) :
    ∃ w, g.build (.list vs) = .ok w ∧ Derives (g.opening :: (u ++ [g.closing])) (.value w) := by
  cases g with
  | array => exact ⟨_,rfl,.array h⟩
  | object =>
    obtain ⟨es,rfl,h⟩ := h
    exact ⟨_,toDict_entries es,.object h (isDict_dictOf es)⟩

end Group

theorem Blank.append {b b' : Text} (h : Blank b) (h' : Blank b') : Blank (b ++ b') :=
  List.forall_mem_append.mpr ⟨h,h'⟩

theorem Derives.padded_append {u b : Text} {v : Value} (h : Derives u (.padded v))
    (hb : Blank b) : Derives (u ++ b) (.padded v) := by
  cases h with
  | padded hl hu hr => simpa using Derives.padded hl hu (hr.append hb)

theorem Derives.member_append {u b key : Text} {v : Value} (h : Derives u (.member key v))
    (hb : Blank b) : Derives (u ++ b) (.member key v) := by
  cases h with
  | member hl hk hr hv => simpa using Derives.member hl hk hr (hv.padded_append hb)

/-- Blanks after the last element belong to it. -/
theorem Group.Elements.append {g : Group} {u b : Text} {vs : List Value} (h : g.Elements u vs)
    (hb : Blank b) : g.Elements (u ++ b) vs := by
  cases g with
  | array =>
    cases h with
    | item h => exact Derives.item (h.padded_append hb)
    | nextItem h h' => simpa [Elements] using Derives.nextItem h (h'.padded_append hb)
  | object =>
    obtain ⟨es,rfl,h⟩ := h
    refine ⟨es,rfl,?_⟩
    cases h with
    | firstMember h => exact .firstMember (h.member_append hb)
    | nextMember h h' => simpa using Derives.nextMember h (h'.member_append hb)

theorem Group.Elements.ne_nil {g : Group} {u : Text} {vs : List Value} (h : g.Elements u vs) :
    vs ≠ [] := by
  cases g with
  | array => cases h <;> simp
  | object =>
    obtain ⟨es,rfl,h⟩ := h
    cases h <;> simp

/-! ## Kinds of values -/

inductive Kind
  | object
  | array
  | string
  | true
  | false
  | null
  | number
  deriving DecidableEq

namespace Kind

def parser : Kind → Parser
  | object => Json.object
  | array => Json.array
  | string => Json.string
  | true => trueWord
  | false => falseWord
  | null => nullWord
  | number => Json.number

/-- The characters that values of a kind begin with. -/
def first : Kind → Text
  | object => ['\x7b']
  | array => ['[']
  | string => ['"']
  | true => ['t']
  | false => ['f']
  | null => ['n']
  | number => "-0123456789".toList

def all : List Kind := [object,array,string,true,false,null,number]

theorem mem_all (k : Kind) : k ∈ all := by cases k <;> decide

/-- The kind of a value is told by its first character. -/
theorem eq_of_mem_first {k k' : Kind} {c : Char} (h : c ∈ k.first) (h' : c ∈ k'.first) :
    k = k' := by
  have hfind (k : Kind) : ∀ c ∈ k.first, all.find? (c ∈ ·.first) = some k := by
    cases k <;> exact forall_mem_of_all (by decide)
  exact Option.some.inj ((hfind k c h).symm.trans (hfind k' c h'))

theorem not_blank_of_mem_first {k : Kind} {c : Char} (h : c ∈ k.first) : c ∉ blanks := by
  have hblank (k : Kind) : ∀ c ∈ k.first, c ∉ blanks := by
    cases k <;> exact forall_mem_of_all (by decide)
  exact hblank k c h

end Kind

theorem mem_first_of_isDigit {c : Char} (h : c.isDigit = true) : c ∈ Kind.first .number :=
  Decimal.of_isDigit (P := fun c => c ∈ Kind.first .number) (by decide) h

/-- A value without blanks around it. -/
def core : Parser := .choice (Kind.all.map Kind.parser)

theorem IsNumber.first {u : Text} (h : IsNumber u) :
    ∃ c u', u = c :: u' ∧ c ∈ Kind.first .number := by
  obtain ⟨hm,hw,-,-⟩ := h
  cases hm with
  | none =>
    cases hw with
    | zero => exact ⟨'0',_,rfl,by decide⟩
    | digits hd _ => exact ⟨_,_,rfl,mem_first_of_isDigit (isDigit_of_mem_nonzero hd)⟩
  | minus => exact ⟨'-',_,rfl,by decide⟩

/-- A value begins with a character of its kind. -/
theorem Derives.first {u : Text} {v : Value} (h : Derives u (.value v)) :
    ∃ k c u', u = c :: u' ∧ c ∈ Kind.first k := by
  cases h with
  | null => exact ⟨.null,'n',_,rfl,by decide⟩
  | true => exact ⟨.true,'t',_,rfl,by decide⟩
  | false => exact ⟨.false,'f',_,rfl,by decide⟩
  | number hu _ => exact ⟨.number,hu.first⟩
  | string => exact ⟨.string,'"',_,rfl,by decide⟩
  | emptyArray | array => exact ⟨.array,'[',_,rfl,by decide⟩
  | emptyObject | object => exact ⟨.object,'\x7b',_,rfl,by decide⟩

theorem Derives.padded_ne_nil {u : Text} {v : Value} (h : Derives u (.padded v)) : u ≠ [] := by
  cases h with
  | padded _ h _ =>
    obtain ⟨k,c,u,rfl,-⟩ := h.first
    simp

theorem Group.Element.ne_nil {g : Group} {u : Text} {v : Value} (h : g.Element u v) : u ≠ [] := by
  cases g with
  | array => exact Derives.padded_ne_nil h
  | object =>
    obtain ⟨key,w,rfl,h⟩ := h
    cases h with
    | member => simp

variable {t u rest : Text} {i : Int}

/-! ## How values are read -/

theorem Group.fails {g : Group} (h : grammar.Fails t g.openingParser i false) :
    grammar.Fails t g.parser i false := by
  cases g with
  | array => exact .map (.seq (.here h))
  | object => exact .map (.seq (.here h))

theorem fails_group {g : Group} (h : At t i u) (hu : ∀ c ∈ u.head?, c ≠ g.opening) :
    grammar.Fails t g.parser i false := by
  refine Group.fails ?_
  cases g <;> exact .cut (fails_char h hu)

theorem fails_word {name : String} {c : Char} {word : Text} {v : Value} (h : At t i u)
    (hu : ∀ d ∈ u.head?, d ≠ c) : grammar.Fails t (constant name (c :: word) v) i false := by
  refine .map (fails_literal h ?_)
  rintro ⟨r,rfl⟩
  exact hu c rfl rfl

theorem fails_string (h : At t i u) (hb : ∀ c ∈ u.head?, c ∉ blanks)
    (hu : ∀ c ∈ u.head?, c ≠ '"') : grammar.Fails t string i false := by
  have hspace : grammar.Ends t space i (.value (.success .none (i + 0) false)) :=
    ends_space (b := []) h (by simp [Blank]) hb
  exact .seq (.skip hspace (isUnit_terminal _ _) (.here (fails_char (At.skip (v := []) h) hu)))

/-- A kind of value fails, without a cut, where it does not begin. -/
theorem fails_kind (k : Kind) (h : At t i u) (hb : ∀ c ∈ u.head?, c ∉ blanks)
    (hu : ∀ c ∈ u.head?, c ∉ k.first) : grammar.Fails t k.parser i false := by
  have hne (d : Char) (hd : d ∈ k.first) : ∀ c ∈ u.head?, c ≠ d := by
    rintro c hc rfl
    exact hu c hc hd
  cases k with
  | object => exact fails_group (g := .object) h (hne _ (by decide))
  | array => exact fails_group (g := .array) h (hne _ (by decide))
  | string => exact fails_string h hb (hne _ (by decide))
  | true => exact fails_word h (hne _ (by decide))
  | false => exact fails_word h (hne _ (by decide))
  | null => exact fails_word h (hne _ (by decide))
  | number =>
    refine fails_number_head h fun c hc => ⟨hne _ (by decide) c hc,?_⟩
    exact Bool.eq_false_iff.mpr fun hd => hu c hc (mem_first_of_isDigit hd)

theorem fails_core (h : At t i u) (hb : ∀ c ∈ u.head?, c ∉ blanks)
    (hu : ∀ k : Kind, ∀ c ∈ u.head?, c ∉ k.first) : grammar.Fails t core i false := by
  refine Fails.choice (.none fun p hp => ?_)
  obtain ⟨k,-,rfl⟩ := List.mem_map.mp hp
  exact fails_kind k h hb (hu k)

/-- A value is read as one of its kind. -/
theorem ends_core {k : Kind} {c : Char} {v : Value} {j : Int} {cut : Bool} (h : At t i (c :: u))
    (hc : c ∈ k.first) (hk : grammar.Ends t k.parser i (.value (.success v j cut))) :
    grammar.Ends t core i (.value (.success v j false)) := by
  refine .choice (.only k.mem_all (fun x _ hx => fails_kind x h ?_ ?_) hk)
  · simpa using k.not_blank_of_mem_first hc
  · simpa using fun hm => hx (Kind.eq_of_mem_first hm hc)

theorem ends_word {name : String} {word : Text} {v : Value} (h : At t i (word ++ rest)) :
    grammar.Ends t (constant name word v) i (.value (.success v (i + word.length) false)) :=
  .map (ends_literal h) rfl

theorem ends_string {k s : Text} (h : At t i ('"' :: (k ++ '"' :: rest))) (hk : Characters k s) :
    grammar.Ends t string i
      (.value (.success (.str s) (i + ('"' :: (k ++ ['"'])).length) false)) := by
  have hseq := ends_quoted (G := grammar) (b := []) h (by simp [Blank]) hk .nil
  have hi : i + ([] : Text).length + 1 + k.length + 1 = i + ('"' :: (k ++ ['"'])).length := by
    simp
    omega
  rw [hi] at hseq
  exact .seq hseq

theorem ends_opening {g : Group} (h : At t i (g.opening :: u)) :
    grammar.Ends t g.openingParser i (.value (.success .none (i + 1) true)) := by
  cases g <;> exact .cut (ends_char h)

/-- A group whose elements have been read, up to blanks and the closing bracket. -/
theorem ends_group {g : Group} {b : Text} {vs : List Value} {v : Value} {cut : Bool}
    (h : At t i (g.opening :: (u ++ (b ++ g.closing :: rest))))
    (hu : grammar.Ends t g.elements (i + 1) (.value (.success (.list vs) (i + 1 + u.length) cut)))
    (hb : Blank b) (hv : g.build (.list vs) = .ok v) :
    grammar.Ends t g.parser i
      (.value (.success v (i + (g.opening :: (u ++ (b ++ [g.closing]))).length) true)) := by
  have hclosing : grammar.Ends t g.closingParser (i + 1 + u.length + b.length)
      (.value (.success .none (i + 1 + u.length + b.length + 1) false)) := by
    cases g <;> exact ends_char h.next.skip.skip
  have hnext : ∀ c ∈ (g.closing :: rest).head?, c ∉ blanks := by
    cases g <;> simp [Group.closing,blanks]
  have hspace : grammar.Ends t space (i + 1 + u.length) _ := ends_space h.next.skip hb hnext
  have hi : i + (g.opening :: (u ++ (b ++ [g.closing]))).length =
      i + 1 + u.length + b.length + 1 := by
    simp
    omega
  have hparts : grammar.EndsSeq t g.parts [] false i
      (.value (.success (.list vs) (i + 1 + u.length + b.length + 1) true)) := by
    refine .skip (ends_opening h) (isUnit_opening g) (.keep hu (isUnit_elements g) ?_)
    exact .skip hspace (isUnit_terminal _ _) (.skip hclosing (isUnit_closing g) .nil)
  rw [hi]
  cases g with
  | array => exact .map (.seq hparts) hv
  | object => exact .map (.seq hparts) hv

/-- A value with blanks around it. -/
theorem ends_value {b b' : Text} {v : Value} (h : At t i (b ++ (u ++ (b' ++ rest))))
    (hb : Blank b) (hu : ∀ c ∈ (u ++ (b' ++ rest)).head?, c ∉ blanks)
    (hv : grammar.Ends t core (i + b.length)
      (.value (.success v (i + b.length + u.length) false)))
    (hb' : Blank b') (hr : ∀ c ∈ rest.head?, c ∉ blanks) :
    grammar.Ends t value i (.value (.success v (i + (b ++ (u ++ b')).length) false)) := by
  have hleft : grammar.Ends t space i _ := ends_space h hb hu
  have hright : grammar.Ends t space (i + b.length + u.length) _ := ends_space h.skip.skip hb' hr
  have hi : i + (b ++ (u ++ b')).length = i + b.length + u.length + b'.length := by
    simp
    omega
  have hunit : grammar.isUnit core = false := by simp [core,Kind.all,Kind.parser,object]
  rw [hi]
  refine .rule (.seq (.skip hleft (isUnit_terminal _ _) ?_))
  exact .keep hv hunit (.skip hright (isUnit_terminal _ _) .nil)

theorem fails_value {cut : Bool} (h : grammar.FailsSeq t [space,core,space] [] false i cut) :
    grammar.Fails t value i cut := by
  have hseq : grammar.Fails t valueBody i cut := .seq h
  exact Fails.rule hseq

/-- A key with a value. -/
theorem ends_pair {b k s b' : Text} {v : Value} {cut : Bool}
    (h : At t i (b ++ '"' :: (k ++ '"' :: (b' ++ ':' :: (u ++ rest))))) (hb : Blank b)
    (hk : Characters k s) (hb' : Blank b')
    (hv : grammar.Ends t value (i + b.length + 1 + k.length + 1 + b'.length + 1)
      (.value (.success v (i + b.length + 1 + k.length + 1 + b'.length + 1 + u.length) cut))) :
    grammar.Ends t pair i (.value (.success (entry (s,v))
      (i + (b ++ '"' :: (k ++ '"' :: (b' ++ ':' :: u))).length) cut)) := by
  have hat := h.skip.next.skip.next
  have hspace : grammar.Ends t space (i + b.length + 1 + k.length + 1) _ :=
    ends_space hat hb' (by simp [blanks])
  have hcolon : grammar.Ends t (char "json.colon" ':')
      (i + b.length + 1 + k.length + 1 + b'.length) _ := ends_char hat.skip
  have hi : i + (b ++ '"' :: (k ++ '"' :: (b' ++ ':' :: u))).length =
      i + b.length + 1 + k.length + 1 + b'.length + 1 + u.length := by
    simp
    omega
  have hrest : grammar.EndsSeq t [space,char "json.colon" ':',value] [.str s] false
      (i + b.length + 1 + k.length + 1) (.value (.success (entry (s,v))
        (i + b.length + 1 + k.length + 1 + b'.length + 1 + u.length) cut)) := by
    refine .skip hspace (isUnit_terminal _ _) (.skip hcolon (isUnit_terminal _ _) ?_)
    exact .keep hv isUnit_value .nil
  rw [hi]
  exact .seq (ends_quoted h hb hk hrest)

end Peg.Samples.Json
