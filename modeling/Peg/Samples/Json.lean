import Peg.Catalogue
import Peg.Pattern.Reading

/-! A grammar for JSON texts that builds their values while it parses.  Once an opening bracket
has matched, no other kind of value is tried; escapes are decoded where they stand. -/
namespace Peg.Samples.Json

/-- What a character stands for after a backslash. -/
def escapes : List (Char × Char) :=
  [('"', '"'), ('\\', '\\'), ('/', '/'), ('b', '\x08'), ('f', '\x0c'), ('n', '\n'), ('r', '\r'),
    ('t', '\t')]

def decodeEscape : Value → Except Fault Value
  | .str [c] =>
    match escapes.lookup c with
    | some d => .ok (.str [d])
    | none => .error (.unknownKey (.str [c]))
  | v => .error (.unknownKey v)

/-- The character with a number in hexadecimal digits. -/
def decodeHex : Value → Except Fault Value
  | .str t =>
    match Pattern.hexValue? t with
    | some n => .ok (.str [Char.ofNat n])
    | none => .error (.notAnInteger t)
  | _ => .error .mismatch

def joinTexts : Value → Except Fault Value :=
  Catalogue.spread fun vs => (Catalogue.join vs).map .str

def toList : Value → Except Fault Value :=
  Catalogue.partly fun v => v.items?.map .list

/-- A key with its value. -/
def entry? : Value → Option (Text × Value)
  | .tuple [.str key, v] => some (key, v)
  | _ => none

def toDict : Value → Except Fault Value :=
  Catalogue.partly fun
    | .list vs => (vs.mapM entry?).map fun es => .dict (Value.dictOf es)
    | _ => none

def lambda : Text := "<lambda>".toList

def char (name : String) (c : Char) : Parser := .terminal (.named name) (.char c)

def space : Parser := .terminal (.named "json.space") (.runOf " \r\n\t".toList 0)

def digits : Parser := .terminal (.named "json.digits") (.runOf "0123456789".toList 1)

def hexDigit : Parser :=
  .terminal (.named "json.hex digit") (.oneOf "0123456789abcdefABCDEF".toList)

/-- Zero, or digits that do not begin with it. -/
def integral : Parser :=
  .choice
    [char "json.zero" '0',
      .seq (.named "json.whole")
        [.terminal (.named "json.first digit") (.oneOf "123456789".toList),
          .terminal (.named "json.more digits") (.runOf "0123456789".toList 0)]]

def fractional : Parser := .seq (.named "json.fraction") [char "json.point" '.', digits]

def exponent : Parser :=
  .seq (.named "json.exponent")
    [.terminal (.named "json.exponent mark") (.oneOf "eE".toList),
      .opt (.terminal (.named "json.exponent sign") (.oneOf "+-".toList)), digits]

def number : Parser :=
  .map (.named "json.number")
    (.capture (.seq (.named "json.number text")
      [.opt (char "json.minus" '-'), integral, .opt fractional, .opt exponent]))
    Catalogue.toFloat "float".toList

/-- One or more characters other than the quote and the backslash. -/
def plainPattern : Pattern :=
  .sequence [.loop (.one ⟨[.range '"' '"', .range '\\' '\\'], true, false⟩) 1 none true]

def plainChars : Parser :=
  .capture (.terminal (.named "json.plain") (.regex plainPattern.matcher "[^\"\\\\]+".toList))

def pass : Parser := .terminal (.named "json.pass") .pass

def unicodeEscape : Parser :=
  .seq (.named "json.unicode escape")
    [.terminal (.named "json.unicode mark") (.literal "\\u".toList),
      .map (.named "json.code point")
        (.capture (.rep (.named "json.hex digits") hexDigit 4 (some 4) pass)) decodeHex lambda]

def simpleEscape : Parser :=
  .seq (.named "json.simple escape")
    [char "json.backslash" '\\',
      .map (.named "json.escaped")
        (.capture (.terminal (.named "json.escape letter") (.oneOf (escapes.map Prod.fst))))
        decodeEscape "__getitem__".toList]

/-- What stands between the quotes of a string. -/
def stringParts : Parser :=
  .map (.named "json.string parts")
    (.rep (.named "json.string pieces") (.choice [plainChars, unicodeEscape, simpleEscape]) 0 none
      pass)
    joinTexts "join".toList

def string : Parser :=
  .seq (.named "json.string")
    [space, char "json.opening quote" '"', stringParts, char "json.closing quote" '"']

/-- A word that stands for one value. -/
def constant (name : String) (word : Text) (v : Value) : Parser :=
  .map (.named name) (.terminal (.part 0 (.named name)) (.literal word)) (fun _ => .ok v) lambda

def trueWord : Parser := constant "json.true" "true".toList (.bool true)

def falseWord : Parser := constant "json.false" "false".toList (.bool false)

def nullWord : Parser := constant "json.null" "null".toList .none

/-- A value of any kind, with blanks around it. -/
def value : Parser := .rule (.named "json.value") "json_value".toList

def array : Parser :=
  .map (.named "json.array")
    (.seq (.named "json.array body")
      [.cut (char "json.opening bracket" '['),
        .rep (.named "json.items") value 0 none (char "json.item comma" ','), space,
        char "json.closing bracket" ']'])
    toList "list".toList

def pair : Parser :=
  .seq (.named "json.pair")
    [space, char "json.opening quote" '"', stringParts, char "json.closing quote" '"', space,
      char "json.colon" ':', value]

def object : Parser :=
  .map (.named "json.object")
    (.seq (.named "json.object body")
      [.cut (char "json.opening brace" '\x7b'),
        .rep (.named "json.pairs") pair 0 none (char "json.pair comma" ','), space,
        char "json.closing brace" '\x7d'])
    toDict "dict".toList

def valueBody : Parser :=
  .seq (.named "json.value body")
    [space, .choice [object, array, string, trueWord, falseWord, nullWord, number], space]

/-- A value up to the end of the text. -/
def document : Parser :=
  .seq (.named "json.document") [value, .terminal (.named "json.end") .finish]

/-- The bodies of the grammar's rules. -/
def body? (rule : String) : Option Parser :=
  if rule = "json.value" then some valueBody else none

end Peg.Samples.Json
