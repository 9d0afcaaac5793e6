import Peg.Pattern

/-! Patterns read from their text.  Every reader returns what it read and the text after it, and
nothing at all when the text is malformed. -/
namespace Peg.Pattern

structure Flags where
  ignoreCase : Bool := false
  multiline : Bool := false
  dotAll : Bool := false

/-- The number that a run of hexadecimal digits of a fixed width stands for. -/
def hexValue? (t : Text) : Option Nat :=
  t.foldlM (fun n c =>
    if c.isDigit then some (16 * n + (c.toNat - 48))
    else if 'a' ≤ c && c ≤ 'f' then some (16 * n + (c.toNat - 87))
    else if 'A' ≤ c && c ≤ 'F' then some (16 * n + (c.toNat - 55))
    else none) 0

def readHex (width : Nat) (t : Text) : Option (Char × Text) :=
  if t.length < width then none
  else (hexValue? (t.take width)).map fun n => (Char.ofNat n, t.drop width)

/-- What a backslash and the character after it stand for. -/
inductive Escaped
  | char (c : Char)
  | member (m : Member)
  | mark (m : Mark)

def classEscape? : Char → Option Member
  | 'd' => some (.digit true)
  | 'D' => some (.digit false)
  | 's' => some (.blank true)
  | 'S' => some (.blank false)
  | 'w' => some (.word true)
  | 'W' => some (.word false)
  | _ => none

def markEscape? : Char → Option Mark
  | 'A' => some .textStart
  | 'Z' => some .textEnd
  | 'b' => some .wordEdge
  | 'B' => some .wordInside
  | _ => none

def controlEscape? : Char → Option Char
  | 'a' => some '\x07'
  | 'f' => some '\x0c'
  | 'n' => some '\n'
  | 'r' => some '\r'
  | 't' => some '\t'
  | 'v' => some '\x0b'
  | _ => none

/-- Up to two more octal digits after a zero. -/
def readOctal (t : Text) : Char × Text :=
  let digits := (t.take 2).takeWhile fun c => '0' ≤ c && c ≤ '7'
  (Char.ofNat (digits.foldl (fun n c => 8 * n + (c.toNat - 48)) 0), t.drop digits.length)

/-- What follows a backslash; inside brackets `b` is the backspace and there are no marks. -/
def readEscape (inBrackets : Bool) : Text → Option (Escaped × Text)
  | [] => none
  | c :: r =>
    match classEscape? c, controlEscape? c with
    | some m, _ => some (.member m, r)
    | none, some d => some (.char d, r)
    | none, none =>
      if c = 'x' then (readHex 2 r).map fun (d, r) => (.char d, r)
      else if c = 'u' then (readHex 4 r).map fun (d, r) => (.char d, r)
      else if c = 'U' then (readHex 8 r).map fun (d, r) => (.char d, r)
      else if c = '0' then let (d, r) := readOctal r; some (.char d, r)
      else if inBrackets && c = 'b' then some (.char '\x08', r)
      else match if inBrackets then none else markEscape? c with
        | some m => some (.mark m, r)
        | none => if c.isAlphanum then none else some (.char c, r)

/-- One end of a range in brackets, or a class. -/
def readBound : Text → Option (Member × Text)
  | [] => none
  | '\\' :: r =>
    match readEscape true r with
    | some (.char c, r) => some (.range c c, r)
    | some (.member m, r) => some (m, r)
    | _ => none
  | c :: r => some (.range c c, r)

/-- The members up to the closing bracket, which is a member itself when it comes first. -/
def readMembers : Nat → List Member → Text → Option (List Member × Text)
  | 0, _, _ => none
  | fuel + 1, members, t =>
    match t, members with
    | ']' :: r, _ :: _ => some (members.reverse, r)
    | _, _ =>
      match readBound t with
      | some (m, '-' :: ']' :: r) => some ((.range '-' '-' :: m :: members).reverse, r)
      | some (m, '-' :: r) =>
        match m, readBound r with
        | .range low _, some (.range high _, r) =>
          if low ≤ high then readMembers fuel (.range low high :: members) r else none
        | _, _ => none
      | some (m, r) => readMembers fuel (m :: members) r
      | none => none

def readBrackets (flags : Flags) (t : Text) : Option (Pattern × Text) :=
  let (inverted, r) := match t with
    | '^' :: r => (true, r)
    | r => (false, r)
  (readMembers (r.length + 1) [] r).map fun (members, r) =>
    (.one ⟨members, inverted, flags.ignoreCase⟩, r)

/-- The bounds after an opening brace, or nothing when the brace stands for itself. -/
def readBounds (t : Text) : Option (Nat × Option Nat × Text) :=
  let value (ds : Text) : Nat := ds.foldl (fun n c => 10 * n + (c.toNat - 48)) 0
  let low := t.takeWhile Char.isDigit
  match t.dropWhile Char.isDigit with
  | '}' :: r => if low.isEmpty then none else some (value low, some (value low), r)
  | ',' :: r =>
    let high := r.takeWhile Char.isDigit
    match r.dropWhile Char.isDigit with
    | '}' :: r => some (value low, if high.isEmpty then none else some (value high), r)
    | _ => none
  | _ => none

/-- Whether a quantifier may follow what was read last. -/
inductive Standing
  | bare
  | item
  | loop
deriving DecidableEq

/-- The last part read, put into a loop. -/
def quantify (done : List Pattern) (last : Standing) (least : Nat) (most : Option Nat) (t : Text) :
    Option (List Pattern × Text) :=
  match done, last with
  | p :: ps, .item =>
    if most.any (· < least) then none
    else match t with
      | '?' :: r => some (.loop p least most false :: ps, r)
      | r => some (.loop p least most true :: ps, r)
  | _, _ => none

def literal (flags : Flags) (c : Char) : Pattern := .one ⟨[.range c c], false, flags.ignoreCase⟩

mutual
/-- Branches up to a closing parenthesis or the end. -/
def readChoice (flags : Flags) : Nat → List Pattern → Text → Option (Pattern × Text)
  | 0, _, _ => none
  | fuel + 1, branches, t =>
    match readSequence flags fuel [] .bare t with
    | none => none
    | some (p, '|' :: r) => readChoice flags fuel (p :: branches) r
    | some (p, r) =>
      match branches with
      | [] => some (p, r)
      | _ :: _ => some (.choice (p :: branches).reverse, r)

/-- Parts up to a bar, a closing parenthesis or the end. -/
def readSequence (flags : Flags) : Nat → List Pattern → Standing → Text → Option (Pattern × Text)
  | 0, _, _, _ => none
  | fuel + 1, done, last, t =>
    let loop (least : Nat) (most : Option Nat) (r : Text) : Option (Pattern × Text) :=
      match quantify done last least most r with
      | some (done, r) => readSequence flags fuel done .loop r
      | none => none
    let mark (m : Mark) (r : Text) : Option (Pattern × Text) :=
      readSequence flags fuel (.mark m :: done) .bare r
    let item (p : Pattern) (r : Text) : Option (Pattern × Text) :=
      readSequence flags fuel (p :: done) .item r
    match t with
    | [] | '|' :: _ | ')' :: _ => some (.sequence done.reverse, t)
    | '*' :: r => loop 0 none r
    | '+' :: r => loop 1 none r
    | '?' :: r => loop 0 (some 1) r
    | '{' :: r =>
      match readBounds r with
      | some (least, most, r) => loop least most r
      | none => item (literal flags '{') r
    | '.' :: r =>
      item (.one ⟨if flags.dotAll then [] else [.range '\n' '\n'], true, false⟩) r
    | '^' :: r => mark (if flags.multiline then .lineStart else .textStart) r
    | '$' :: r => mark (if flags.multiline then .lineEnd else .lastLineEnd) r
    | '[' :: r =>
      match readBrackets flags r with
      | some (p, r) => item p r
      | none => none
    | '(' :: r =>
      match readGroup flags fuel r with
      | some (p, r) => item p r
      | none => none
    | '\\' :: r =>
      match readEscape false r with
      | some (.char c, r) => item (literal flags c) r
      | some (.member m, r) => item (.one ⟨[m], false, false⟩) r
      | some (.mark m, r) => mark m r
      | none => none
    | c :: r => item (literal flags c) r

/-- What follows an opening parenthesis, up to the closing one. -/
def readGroup (flags : Flags) : Nat → Text → Option (Pattern × Text)
  | 0, _ => none
  | fuel + 1, t =>
    let body (wrap : Pattern → Pattern) (r : Text) : Option (Pattern × Text) :=
      match readChoice flags fuel [] r with
      | some (p, ')' :: r) => some (wrap p, r)
      | _ => none
    match t with
    | '?' :: ':' :: r => body id r
    | '?' :: '=' :: r => body (.ahead true) r
    | '?' :: '!' :: r => body (.ahead false) r
    | '?' :: _ => none
    | r => body id r
end

/-- The pattern that a text describes. -/
def ofText? (flags : Flags) (t : Text) : Option Pattern :=
  match readChoice flags (3 * t.length + 4) [] t with
  | some (p, []) => some p
  | _ => none

end Peg.Pattern
