import Trove.Lib.Except
import Trove.Lib.Regexp

/-!
# Reading regular expressions

The text of an expression in the syntax of RE2 is read a character at a time. What has been read of
the innermost open group is a `Local`, which may ask for a group to be opened or closed; `Ahead` is
what is looked up behind a parenthesis, a brace or a bracket.

The tables of the character properties and of the case foldings are a parameter. The bounds on the
size and the nesting of an expression are left out.
-/

namespace Trove.Lib.Regexp

/-- The tables of Unicode. -/
structure Unicode where
  /-- The characters with a property, such as `L` or `Greek`. -/
  property : String → Option (Char → Bool)
  /-- The characters that differ from this one in case only. -/
  orbit : Char → List Char

/-- Why a text is refused. -/
inductive ParseError
  | invalidCharRange
  | invalidEscape
  | invalidNamedCapture
  | invalidPerlOp
  | invalidRepeatOp
  | invalidRepeatSize
  | missingBracket
  | missingParen
  | missingRepeatArgument
  | trailingBackslash
  | unexpectedParen
  deriving DecidableEq

/-- The text of its error. -/
def ParseError.text : ParseError → String
  | .invalidCharRange => "invalid character class range"
  | .invalidEscape => "invalid escape sequence"
  | .invalidNamedCapture => "invalid named capture"
  | .invalidPerlOp => "invalid or unsupported Perl syntax"
  | .invalidRepeatOp => "invalid nested repetition operator"
  | .invalidRepeatSize => "invalid repeat count"
  | .missingBracket => "missing closing ]"
  | .missingParen => "missing closing )"
  | .missingRepeatArgument => "missing argument to repetition operator"
  | .trailingBackslash => "trailing backslash at end of expression"
  | .unexpectedParen => "unexpected )"

/-- The flags `i`, `m` and `s`. The flag `U` swaps which match is preferred and is not kept. -/
structure Flags where
  fold : Bool := false
  lines : Bool := false
  dotAll : Bool := false

/-! ## Sets of characters -/

def inRange (lo hi : ℕ) (c : Char) : Bool := lo ≤ c.toNat && c.toNat ≤ hi

/-- The set with everything that differs from a member in case only, when case is folded. -/
def Flags.closure (u : Unicode) (f : Flags) (member : Char → Bool) : Char → Bool :=
  if f.fold then fun c => (u.orbit c).any member else member

def Flags.signed (u : Unicode) (f : Flags) (negated : Bool) (member : Char → Bool) : Char → Bool :=
  fun c => f.closure u member c != negated

def perlClass : Char → Option (Bool × (Char → Bool))
  | 'd' => some (false, Char.isDigit)
  | 'D' => some (true, Char.isDigit)
  | 's' => some (false, fun c => c ∈ ['\t', '\n', '\x0c', '\r', ' '])
  | 'S' => some (true, fun c => c ∈ ['\t', '\n', '\x0c', '\r', ' '])
  | 'w' => some (false, isWord)
  | 'W' => some (true, isWord)
  | _ => none

def posixClass : List Char → Option (Char → Bool) := fun name =>
  match String.ofList name with
  | "alnum" => some Char.isAlphanum
  | "alpha" => some Char.isAlpha
  | "ascii" => some (inRange 0 0x7f)
  | "blank" => some fun c => c ∈ ['\t', ' ']
  | "cntrl" => some fun c => inRange 0 0x1f c || c.toNat = 0x7f
  | "digit" => some Char.isDigit
  | "graph" => some (inRange 0x21 0x7e)
  | "lower" => some Char.isLower
  | "print" => some (inRange 0x20 0x7e)
  | "punct" => some fun c => inRange 0x21 0x7e c && !c.isAlphanum
  | "space" => some fun c => inRange 0x9 0xd c || c = ' '
  | "upper" => some Char.isUpper
  | "word" => some isWord
  | "xdigit" => some fun c => c.isDigit || inRange 0x41 0x46 c || inRange 0x61 0x66 c
  | _ => none

def signedName : List Char → Bool × List Char
  | '^' :: name => (true, name)
  | name => (false, name)

def octalDigit (c : Char) : Option ℕ := if inRange 0x30 0x37 c then some (c.toNat - 0x30) else none

def hexDigit (c : Char) : Option ℕ :=
  if c.isDigit then some (c.toNat - 0x30)
  else if inRange 0x61 0x66 c then some (c.toNat - 0x61 + 10)
  else if inRange 0x41 0x46 c then some (c.toNat - 0x41 + 10)
  else none

/-! ## What follows -/

def number (s : List Char) : Option (ℕ × List Char) :=
  match s.takeWhile Char.isDigit with
  | [] => none
  | '0' :: _ :: _ => none
  | digits => some (digits.foldl (fun n c => n * 10 + (c.toNat - 0x30)) 0, s.dropWhile Char.isDigit)

/-- The count ends here. -/
def closesCount (s : List Char) : Bool := s.head? = some '\x7d'

def countRest (n : ℕ) (s : List Char) : Option (Option ℕ) :=
  if closesCount s then some (some n)
  else if s.head? ≠ some ',' then none
  else if closesCount s.tail then some none
  else do
    let (m, rest) ← number s.tail
    if closesCount rest then some (some m) else none

def count (s : List Char) : Option (ℕ × Option ℕ) := do
  let (n, rest) ← number s
  let max ← countRest n rest
  some (n, max)

def closesName : List Char → Bool
  | ':' :: ']' :: _ => true
  | _ :: rest => closesName rest
  | [] => false

structure Ahead where
  question : Bool
  count : Option (ℕ × Option ℕ)
  named : Bool

def ahead (s : List Char) : Ahead where
  question := s.head? = some '?'
  count := Regexp.count s
  named := s.head? = some ':' && closesName s.tail

/-! ## The state -/

/-- A class in brackets so far. -/
structure Class where
  negated : Bool
  member : Char → Bool

/-- Further members. -/
def Class.add (cls : Class) (member : Char → Bool) : Class :=
  { cls with member := fun c => cls.member c || member c }

/-- Where an escape stands: outside of a class, as an item of one, or as the upper end of a range
in one. -/
inductive Place
  | outside
  | item (cls : Class)
  | upper (cls : Class) (lo : ℕ)

/-- What the last characters began and did not finish. -/
inductive Mode
  | plain
  | repetition
  | counting
  | escape (p : Place)
  | backref (p : Place) (value : ℕ)
  | octal (p : Place) (digits value : ℕ)
  | hex (p : Place)
  | hexSecond (p : Place) (value : ℕ)
  | hexBraces (p : Place) (digits value : ℕ)
  | property (p : Place) (negated : Bool)
  | propertyName (p : Place) (negated : Bool) (name : List Char)
  | quotation
  | quotationSlash
  | question
  | perl
  | perlName
  | flags (negated sawFlag : Bool) (f : Flags)
  | name (name : List Char)
  | classBegin
  | classItem (cls : Class) (first : Bool)
  | classLower (cls : Class) (lo : ℕ)
  | classDash (cls : Class) (lo : ℕ)
  | classNameBegin (cls : Class)
  | className (cls : Class) (name : List Char)

/-- What is read of the innermost open group. -/
structure Local where
  mode : Mode := .plain
  flags : Flags := {}
  repeated : Bool := false
  alternatives : List Regexp := []
  items : List Regexp := []

namespace Local

/-- One more item. -/
def push (l : Local) (r : Regexp) : Local :=
  { l with mode := .plain, repeated := false, items := r :: l.items }

def expr (l : Local) : Regexp :=
  match l.alternatives.reverse with
  | [] => cats l.items.reverse
  | r :: rs => alts r (rs ++ [cats l.items.reverse])

/-- A set, by its sign. -/
def pushSet (u : Unicode) (l : Local) (negated : Bool) (member : Char → Bool) : Local :=
  l.push (.char (l.flags.signed u negated member))

def literal (u : Unicode) (l : Local) (code : ℕ) : Local := l.pushSet u false (inRange code code)

def extend (u : Unicode) (l : Local) (cls : Class) (negated : Bool) (member : Char → Bool) :
    Local :=
  { l with mode := .classItem (cls.add (l.flags.signed u negated member)) false }

/-- The class is read. -/
def closeClass (l : Local) (cls : Class) : Local :=
  l.push (.char fun c => cls.member c != cls.negated)

/-! ## Escapes -/

/-- A character was read that an escape stood for, or that stands for itself in a class. -/
def deliver (u : Unicode) (l : Local) (p : Place) (code : ℕ) : Except ParseError Local :=
  match p with
  | .outside => .ok (l.literal u code)
  | .item cls => .ok { l with mode := .classLower cls code }
  | .upper cls lo =>
    if code < lo then .error .invalidCharRange
    else .ok (l.extend u cls false (inRange lo code))

/-- A set was read that an escape stood for. It is not the upper end of a range. -/
def deliverSet (u : Unicode) (l : Local) (p : Place) (negated : Bool) (member : Char → Bool) :
    Except ParseError Local :=
  match p with
  | .outside => .ok (l.pushSet u negated member)
  | .item cls => .ok (l.extend u cls negated member)
  | .upper _ _ => .error .invalidEscape

def escapeChar (u : Unicode) (l : Local) (p : Place) (c : Char) : Except ParseError Local :=
  match c with
  | '0' => .ok { l with mode := .octal p 1 0 }
  | 'x' => .ok { l with mode := .hex p }
  | 'a' => l.deliver u p 0x7
  | 'f' => l.deliver u p 0xc
  | 'n' => l.deliver u p 0xa
  | 'r' => l.deliver u p 0xd
  | 't' => l.deliver u p 0x9
  | 'v' => l.deliver u p 0xb
  | _ =>
    match octalDigit c with
    | some value => .ok { l with mode := .backref p value }
    | none =>
      if c.toNat < 0x80 && !c.isAlphanum then l.deliver u p c.toNat else .error .invalidEscape

def escapeSet (u : Unicode) (l : Local) (p : Place) (c : Char) : Except ParseError Local :=
  match c with
  | 'p' => .ok { l with mode := .property p false }
  | 'P' => .ok { l with mode := .property p true }
  | _ =>
    match perlClass c with
    | some (negated, member) => l.deliverSet u p negated member
    | none => l.escapeChar u p c

def escape (u : Unicode) (l : Local) (c : Char) : Place → Except ParseError Local
  | .outside =>
    match c with
    | 'A' => .ok (l.push (.look .beginText))
    | 'z' => .ok (l.push (.look .endText))
    | 'b' => .ok (l.push (.look .wordBoundary))
    | 'B' => .ok (l.push (.look .noWordBoundary))
    | 'Q' => .ok { l with mode := .quotation, repeated := false }
    | _ => l.escapeSet u .outside c
  | .item cls => l.escapeSet u (.item cls) c
  | .upper cls lo => l.escapeChar u (.upper cls lo) c

/-- A property by its name. -/
def property (u : Unicode) (l : Local) (p : Place) (negated : Bool) (name : List Char) :
    Except ParseError Local :=
  match u.property (String.ofList (signedName name).2) with
  | some member => l.deliverSet u p (negated != (signedName name).1) member
  | none => .error .invalidCharRange

def readHexBraces (u : Unicode) (l : Local) (p : Place) (digits value : ℕ) (c : Char) :
    Except ParseError Local :=
  if c = '\x7d' then if digits = 0 then .error .invalidEscape else l.deliver u p value
  else match hexDigit c with
    | none => .error .invalidEscape
    | some d =>
      if 0x10ffff < value * 16 + d then .error .invalidEscape
      else .ok { l with mode := .hexBraces p (digits + 1) (value * 16 + d) }

/-- In a quotation everything stands for itself, up to the end of the text or to `\E`. -/
def readQuotation (u : Unicode) (l : Local) (slash : Bool) (c : Char) : Local :=
  if c = '\\' then { (if slash then l.literal u 0x5c else l) with mode := .quotationSlash }
  else if slash && c = 'E' then { l with mode := .plain }
  else { (if slash then l.literal u 0x5c else l).literal u c.toNat with mode := .quotation }

/-! ## Classes -/

/-- The next item of a class. A closing bracket in the first place stands for itself. -/
def readItem (u : Unicode) (l : Local) (cls : Class) (first : Bool) (c : Char) (a : Ahead) :
    Except ParseError Local :=
  if c = ']' && !first then .ok (l.closeClass cls)
  else if c = '[' && a.named then .ok { l with mode := .classNameBegin cls }
  else if c = '\\' then .ok { l with mode := .escape (.item cls) }
  else l.deliver u (.item cls) c.toNat

/-- One more member. -/
def single (u : Unicode) (l : Local) (cls : Class) (code : ℕ) : Class :=
  cls.add (l.flags.signed u false (inRange code code))

def readLower (u : Unicode) (l : Local) (cls : Class) (lo : ℕ) (c : Char) (a : Ahead) :
    Except ParseError Local :=
  if c = '-' then .ok { l with mode := .classDash cls lo }
  else l.readItem u (l.single u cls lo) false c a

/-- Behind a dash, which stands for itself at the end of a class. -/
def readUpper (u : Unicode) (l : Local) (cls : Class) (lo : ℕ) (c : Char) :
    Except ParseError Local :=
  if c = ']' then .ok (l.closeClass (l.single u (l.single u cls lo) 0x2d))
  else if c = '\\' then .ok { l with mode := .escape (.upper cls lo) }
  else l.deliver u (.upper cls lo) c.toNat

/-- The name of a class ends with the bracket behind a colon. -/
def readClassName (u : Unicode) (l : Local) (cls : Class) (name : List Char) (c : Char) :
    Except ParseError Local :=
  if c = ']' && name.getLast? = some ':' then
    match posixClass (signedName name.dropLast).2 with
    | some member => .ok (l.extend u cls (signedName name.dropLast).1 member)
    | none => .error .invalidCharRange
  else .ok { l with mode := .className cls (name ++ [c]) }

/-! ## Repetitions -/

/-- The numbers of times of nested counts multiply to no more than the bound. -/
def countsWithin : Regexp → ℕ → Bool
  | .times _ (some 0) _, _ => true
  | .times min max r, n =>
    let m := max.getD min
    m ≤ n && countsWithin r (if 0 < m then n / m else n)
  | .cat r s, n | .alt r s, n => countsWithin r n && countsWithin s n
  | _, _ => true

def repeatLast (l : Local) (min : ℕ) (max : Option ℕ) (mode : Mode) : Except ParseError Local :=
  if l.repeated then .error .invalidRepeatOp
  else match l.items with
    | [] => .error .missingRepeatArgument
    | r :: rs =>
      if (2 ≤ min || max.any (2 ≤ ·)) && !countsWithin (.times min max r) 1000 then
        .error .invalidRepeatSize
      else .ok { l with mode, repeated := true, items := .times min max r :: rs }

def repeatCount (l : Local) (min : ℕ) (max : Option ℕ) : Except ParseError Local :=
  if 1000 < min || max.any (fun m => 1000 < m || m < min) then .error .invalidRepeatSize
  else l.repeatLast min max .counting

end Local

/-! ## Characters -/

/-- What the innermost group asks for when it has read a character. -/
inductive Action
  | stay (l : Local)
  | opens (l : Local) (inner : Flags)
  | closes (l : Local)

namespace Local

def readPlain (u : Unicode) (l : Local) (c : Char) (a : Ahead) : Except ParseError Action :=
  match c with
  | '(' => .ok (if a.question then .stay { l with mode := .question } else .opens l l.flags)
  | ')' => .ok (.closes l)
  | '|' =>
    .ok (.stay { l with mode := .plain, repeated := false, items := [],
                        alternatives := cats l.items.reverse :: l.alternatives })
  | '^' => .ok (.stay (l.push (.look (if l.flags.lines then .beginLine else .beginText))))
  | '$' => .ok (.stay (l.push (.look (if l.flags.lines then .endLine else .endText))))
  | '.' => .ok (.stay (l.push (.char fun c => l.flags.dotAll || c ≠ '\n')))
  | '[' => .ok (.stay { l with mode := .classBegin })
  | '*' => (l.repeatLast 0 none .repetition).map .stay
  | '+' => (l.repeatLast 1 none .repetition).map .stay
  | '?' => (l.repeatLast 0 (some 1) .repetition).map .stay
  | '\x7b' =>
    match a.count with
    | some (min, max) => (l.repeatCount min max).map .stay
    | none => .ok (.stay (l.literal u 0x7b))
  | '\\' => .ok (.stay { l with mode := .escape .outside })
  | _ => .ok (.stay (l.literal u c.toNat))

def readFlag (l : Local) (negated sawFlag : Bool) (f : Flags) (c : Char) :
    Except ParseError Action :=
  match c with
  | 'i' => .ok (.stay { l with mode := .flags negated true { f with fold := !negated } })
  | 'm' => .ok (.stay { l with mode := .flags negated true { f with lines := !negated } })
  | 's' => .ok (.stay { l with mode := .flags negated true { f with dotAll := !negated } })
  | 'U' => .ok (.stay { l with mode := .flags negated true f })
  | '-' =>
    if negated then .error .invalidPerlOp else .ok (.stay { l with mode := .flags true false f })
  | ':' => if negated && !sawFlag then .error .invalidPerlOp else .ok (.opens l f)
  | ')' =>
    if negated && !sawFlag then .error .invalidPerlOp
    else .ok (.stay { l with mode := .plain, repeated := false, flags := f })
  | _ => .error .invalidPerlOp

def validName (name : List Char) : Bool := !name.isEmpty && name.all isWord

def readOctal (u : Unicode) (l : Local) (p : Place) (digits value : ℕ) (c : Char) (a : Ahead) :
    Except ParseError Action :=
  match octalDigit c, p with
  | some d, p =>
    if digits < 3 then .ok (.stay { l with mode := .octal p (digits + 1) (value * 8 + d) })
    else behind p
  | none, p => behind p
where
  behind : Place → Except ParseError Action
    | .outside => (l.literal u value).readPlain u c a
    | .item cls => (l.readLower u cls value c a).map .stay
    | .upper cls lo =>
      if value < lo then .error .invalidCharRange
      else (l.readItem u (cls.add (l.flags.signed u false (inRange lo value))) false c a).map .stay

def read (u : Unicode) (l : Local) (c : Char) (a : Ahead) : Except ParseError Action :=
  match l.mode with
  | .plain => l.readPlain u c a
  | .repetition =>
    if c = '?' then .ok (.stay { l with mode := .plain }) else l.readPlain u c a
  | .counting => .ok (.stay (if c = '\x7d' then { l with mode := .repetition } else l))
  | .escape p => (l.escape u c p).map .stay
  | .backref p value =>
    match octalDigit c with
    | some d => .ok (.stay { l with mode := .octal p 2 (value * 8 + d) })
    | none => .error .invalidEscape
  | .octal p digits value => l.readOctal u p digits value c a
  | .hex p =>
    if c = '\x7b' then .ok (.stay { l with mode := .hexBraces p 0 0 })
    else match hexDigit c with
      | some d => .ok (.stay { l with mode := .hexSecond p d })
      | none => .error .invalidEscape
  | .hexSecond p value =>
    match hexDigit c with
    | some d => (l.deliver u p (value * 16 + d)).map .stay
    | none => .error .invalidEscape
  | .hexBraces p digits value => (l.readHexBraces u p digits value c).map .stay
  | .property p negated =>
    if c = '\x7b' then .ok (.stay { l with mode := .propertyName p negated [] })
    else (l.property u p negated [c]).map .stay
  | .propertyName p negated name =>
    if c = '\x7d' then (l.property u p negated name).map .stay
    else .ok (.stay { l with mode := .propertyName p negated (name ++ [c]) })
  | .quotation => .ok (.stay (l.readQuotation u false c))
  | .quotationSlash => .ok (.stay (l.readQuotation u true c))
  | .question => if c = '?' then .ok (.stay { l with mode := .perl }) else .error .invalidPerlOp
  | .perl =>
    if c = 'P' then .ok (.stay { l with mode := .perlName })
    else if c = '<' then .ok (.stay { l with mode := .name [] })
    else l.readFlag false false l.flags c
  | .perlName =>
    if c = '<' then .ok (.stay { l with mode := .name [] }) else .error .invalidPerlOp
  | .flags negated sawFlag f => l.readFlag negated sawFlag f c
  | .name name =>
    if c ≠ '>' then .ok (.stay { l with mode := .name (name ++ [c]) })
    else if validName name then .ok (.opens l l.flags) else .error .invalidNamedCapture
  | .classBegin =>
    if c = '^' then .ok (.stay { l with mode := .classItem ⟨true, fun _ => false⟩ true })
    else (l.readItem u ⟨false, fun _ => false⟩ true c a).map .stay
  | .classItem cls first => (l.readItem u cls first c a).map .stay
  | .classLower cls lo => (l.readLower u cls lo c a).map .stay
  | .classDash cls lo => (l.readUpper u cls lo c).map .stay
  | .classNameBegin cls => .ok (.stay { l with mode := .className cls [] })
  | .className cls name => (l.readClassName u cls name c).map .stay

/-- The text ends here. -/
def finish (u : Unicode) (l : Local) : Except ParseError Local :=
  match l.mode with
  | .plain | .repetition | .quotation => .ok l
  | .quotationSlash => .ok (l.literal u 0x5c)
  | .octal .outside _ value => .ok (l.literal u value)
  | .counting => .error .invalidRepeatSize
  | .escape _ => .error .trailingBackslash
  | .backref _ _ | .hex _ | .hexSecond _ _ | .hexBraces _ _ _ => .error .invalidEscape
  | .property _ _ | .propertyName _ _ _ => .error .invalidCharRange
  | .question | .perl | .perlName | .flags _ _ _ => .error .invalidPerlOp
  | .name _ => .error .invalidNamedCapture
  | _ => .error .missingBracket

end Local

/-! ## Texts -/

structure State where
  inner : Local := {}
  /-- The groups around the innermost one as they were interrupted, the innermost first. -/
  outer : List Local := []

namespace State

/-- A group begins with the flags it is given; where it closes, those it interrupted hold again. -/
def act (outer : List Local) : Action → Except ParseError State
  | .stay l => .ok ⟨l, outer⟩
  | .opens l flags => .ok ⟨{ flags }, l :: outer⟩
  | .closes l =>
    match outer with
    | [] => .error .unexpectedParen
    | group :: outer => .ok ⟨group.push l.expr, outer⟩

def step (u : Unicode) (σ : State) (c : Char) (a : Ahead) : Except ParseError State := do
  act σ.outer (← σ.inner.read u c a)

def run (u : Unicode) : State → List Char → Except ParseError State
  | σ, [] => .ok σ
  | σ, c :: rest => do run u (← σ.step u c (ahead rest)) rest

def finish (u : Unicode) (σ : State) : Except ParseError Regexp := do
  let l ← σ.inner.finish u
  if σ.outer.isEmpty then .ok l.expr else .error .missingParen

end State

def parse (u : Unicode) (s : List Char) : Except ParseError Regexp := do
  (← State.run u {} s).finish u

end Trove.Lib.Regexp
