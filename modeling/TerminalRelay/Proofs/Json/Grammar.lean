import TerminalRelay.Json.Printer

namespace TerminalRelay.Json

-- JSON by its grammar, without a word about how it is read

def Blanks (text : List Char) : Prop :=
  ∀ c ∈ text, c ∈ [' ', '\n', '\t', '\r']

-- This instance and that of digits name the one for lists, lest all characters be gone through.
instance : DecidablePred Blanks := fun text =>
  List.decidableBAll (· ∈ [' ', '\n', '\t', '\r']) text

-- A hexadecimal digit in either case
def IsHexDigit (value : Nat) (c : Char) : Prop :=
  value < 16 ∧ (c = value.digitChar ∨ c = value.digitChar.toUpper)

instance (value : Nat) : DecidablePred (IsHexDigit value) := fun _ =>
  inferInstanceAs (Decidable (_ ∧ _))

-- A unit of sixteen bits in four hexadecimal digits, the highest first
inductive IsUnit : Nat → List Char → Prop
  | digits {a b c d : Nat} {w x y z : Char} :
      IsHexDigit a w → IsHexDigit b x → IsHexDigit c y → IsHexDigit d z →
      IsUnit (0x1000 * a + 0x100 * b + 0x10 * c + d) [w, x, y, z]

-- The letters that may stand behind a backslash, and what they mean
def letters : List (Char × Char) :=
  [('"', '"'), ('\\', '\\'), ('/', '/'), ('b', '\x08'), ('f', '\x0c'), ('n', '\n'), ('r', '\r'),
    ('t', '\t')]

-- What may stand for itself in a string
def Plain (c : Char) : Prop :=
  ' ' ≤ c ∧ c ≠ '"' ∧ c ≠ '\\'

instance : DecidablePred Plain := fun _ => inferInstanceAs (Decidable (_ ∧ _))

-- The text between the quotes of a string. Units stand for themselves here, in pairs or not
inductive IsString : List Char → Prop
  | nil : IsString []
  | plain {c : Char} {text : List Char} : Plain c → IsString text → IsString (c :: text)
  | letter {e c : Char} {text : List Char} :
      (e, c) ∈ letters → IsString text → IsString ('\\' :: e :: text)
  | unit {unit : Nat} {digits text : List Char} :
      IsUnit unit digits → IsString text → IsString ('\\' :: 'u' :: (digits ++ text))

-- A string together with the characters it means. No character is a surrogate, so that one behind
-- the first 0x10000 takes two units, and the others take one
inductive Spells : (meant text : List Char) → Prop
  | nil : Spells [] []
  | plain {c : Char} {meant text : List Char} :
      Plain c → Spells meant text → Spells (c :: meant) (c :: text)
  | letter {e c : Char} {meant text : List Char} :
      (e, c) ∈ letters → Spells meant text → Spells (c :: meant) ('\\' :: e :: text)
  | unit {c : Char} {digits meant text : List Char} :
      IsUnit c.toNat digits → Spells meant text →
      Spells (c :: meant) ('\\' :: 'u' :: (digits ++ text))
  | pair {c : Char} {high low : Nat} {leading trailing meant text : List Char} :
      c.toNat = 0x10000 + 0x400 * high + low → high < 0x400 → low < 0x400 →
      IsUnit (0xd800 + high) leading → IsUnit (0xdc00 + low) trailing → Spells meant text →
      Spells (c :: meant) ('\\' :: 'u' :: (leading ++ '\\' :: 'u' :: (trailing ++ text)))

def IsDigits (text : List Char) : Prop :=
  text ≠ [] ∧ ∀ c ∈ text, c.isDigit = true

instance : DecidablePred IsDigits := fun text =>
  have : Decidable (∀ c ∈ text, c.isDigit = true) := List.decidableBAll _ text
  inferInstanceAs (Decidable (_ ∧ _))

-- Only zero itself begins with a zero
def IsWhole (text : List Char) : Prop :=
  IsDigits text ∧ (text.head? = some '0' → text = ['0'])

instance : DecidablePred IsWhole := fun _ => inferInstanceAs (Decidable (_ ∧ _))

inductive IsFraction : List Char → Prop
  | none : IsFraction []
  | point {digits : List Char} : IsDigits digits → IsFraction ('.' :: digits)

inductive IsExponent : List Char → Prop
  | none : IsExponent []
  | power {e : Char} {sign digits : List Char} :
      e ∈ ['e', 'E'] → sign ∈ [[], ['-'], ['+']] → IsDigits digits →
      IsExponent (e :: (sign ++ digits))

inductive IsNumber : List Char → Prop
  | parts {sign whole fraction exponent : List Char} :
      sign ∈ [[], ['-']] → IsWhole whole → IsFraction fraction → IsExponent exponent →
      IsNumber (sign ++ (whole ++ (fraction ++ exponent)))

-- An element is a value with the blanks around it, a member one with its key
inductive Symbol where
  | value
  | element
  | elements
  | member
  | members

inductive Derives : Symbol → List Char → Prop
  | null : Derives .value ['n', 'u', 'l', 'l']
  | truth (value : Bool) : Derives .value (truth value)
  | number {text : List Char} : IsNumber text → Derives .value text
  | string {text : List Char} : IsString text → Derives .value ('"' :: (text ++ ['"']))
  | emptyArray {gap : List Char} : Blanks gap → Derives .value ('[' :: (gap ++ [']']))
  | array {text : List Char} : Derives .elements text → Derives .value ('[' :: (text ++ [']']))
  | emptyObject {gap : List Char} : Blanks gap → Derives .value ('\x7b' :: (gap ++ ['\x7d']))
  | object {text : List Char} :
      Derives .members text → Derives .value ('\x7b' :: (text ++ ['\x7d']))
  | element {before text after : List Char} :
      Blanks before → Derives .value text → Blanks after →
      Derives .element (before ++ (text ++ after))
  | lastElement {text : List Char} : Derives .element text → Derives .elements text
  | moreElements {text rest : List Char} :
      Derives .element text → Derives .elements rest → Derives .elements (text ++ ',' :: rest)
  | member {before key after text : List Char} :
      Blanks before → IsString key → Blanks after → Derives .element text →
      Derives .member (before ++ '"' :: (key ++ '"' :: (after ++ ':' :: text)))
  | lastMember {text : List Char} : Derives .member text → Derives .members text
  | moreMembers {text rest : List Char} :
      Derives .member text → Derives .members rest → Derives .members (text ++ ',' :: rest)

end TerminalRelay.Json
