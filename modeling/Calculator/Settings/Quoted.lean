/-!
# Strings in a settings file

A string stands between double quotes, where a backslash begins an escape, or between single
quotes, where nothing does. Tripled quotes allow line feeds: the first one is dropped when it comes
at once, and up to two quotes may stand right before the closing ones.

A string is first cut out of the text, so that its end is known, and then its escapes are decoded.
-/

namespace Calculator

namespace SettingsFile

/-- Cuts off the string that goes on here up to a single `quote`, with the `content` before it held
latest first. A line feed may not come before the quote. The character after a backslash is no
closing quote if the string has escapes; `escaped` tells that one comes next. -/
def cutLine (quote : Char) (escapes : Bool) :
    (escaped : Bool) → List Char → (content : List Char) → Option (List Char × List Char)
  | _, [], _ => none
  | escaped, c :: rest, content =>
    if c = '\n' then none
    else if escaped then cutLine quote escapes false rest (c :: content)
    else if c = quote then some (content.reverse, rest)
    else cutLine quote escapes (escapes && c == '\\') rest (c :: content)

/-- How many quotes, of the next two, belong to a string that ends in a row of quotes. -/
def extraQuotes (quote : Char) (cs : List Char) : Nat :=
  ((cs.take 2).takeWhile (· == quote)).length

/-- Cuts off the string that goes on here up to a tripled `quote`, as `cutLine` does. -/
def cutLines (quote : Char) (escapes : Bool) :
    (escaped : Bool) → List Char → (content : List Char) → Option (List Char × List Char)
  | _, [], _ => none
  | escaped, c :: rest, content =>
    if escaped then cutLines quote escapes false rest (c :: content)
    else if c = quote ∧ rest.take 2 = [quote, quote] then
      let extra := extraQuotes quote (rest.drop 2)
      some (content.reverse ++ List.replicate extra quote, rest.drop (2 + extra))
    else cutLines quote escapes (escapes && c == '\\') rest (c :: content)

inductive Decoding where
  | plain
  | escaped
  /-- In the blanks behind a backslash at the end of a line, which are dropped. -/
  | folding (pastLine : Bool)
  /-- In the hexadecimal digits of a code point, with `missing + 1` digits to come. -/
  | code (missing value : Nat)
deriving DecidableEq, Repr

def namedEscape? : Char → Option Char
  | '"' => some '"'
  | '\\' => some '\\'
  | 'b' => some '\x08'
  | 't' => some '\t'
  | 'n' => some '\n'
  | 'f' => some '\x0c'
  | 'r' => some '\r'
  | 'e' => some '\x1b'
  | _ => none

/-- How many digits, less one, follow an escape that gives a code point. -/
def codeEscape? : Char → Option Nat
  | 'x' => some 1
  | 'u' => some 3
  | 'U' => some 7
  | _ => none

def hexValue? (c : Char) : Option Nat :=
  if '0' ≤ c ∧ c ≤ '9' then some (c.toNat - '0'.toNat)
  else if 'a' ≤ c ∧ c ≤ 'f' then some (c.toNat - 'a'.toNat + 10)
  else if 'A' ≤ c ∧ c ≤ 'F' then some (c.toNat - 'A'.toNat + 10)
  else none

def scalar? (n : Nat) : Option Char :=
  if n.isValidChar then some (Char.ofNat n) else none

/-- Decodes the escapes in the rest of a string, behind the characters `done`, latest first. -/
def decodeFrom : Decoding → List Char → (done : List Char) → Option (List Char)
  | .plain, [], done => some done.reverse
  | .folding true, [], done => some done.reverse
  | _, [], _ => none
  | .plain, c :: rest, done =>
    if c = '\\' then decodeFrom .escaped rest done else decodeFrom .plain rest (c :: done)
  | .escaped, c :: rest, done =>
    match namedEscape? c, codeEscape? c with
    | some d, _ => decodeFrom .plain rest (d :: done)
    | none, some missing => decodeFrom (.code missing 0) rest done
    | none, none =>
      if c = '\n' then decodeFrom (.folding true) rest done
      else if c = ' ' ∨ c = '\t' then decodeFrom (.folding false) rest done
      else none
  | .folding pastLine, c :: rest, done =>
    if c = '\n' then decodeFrom (.folding true) rest done
    else if c = ' ' ∨ c = '\t' then decodeFrom (.folding pastLine) rest done
    else if !pastLine then none
    else if c = '\\' then decodeFrom .escaped rest done
    else decodeFrom .plain rest (c :: done)
  | .code missing value, c :: rest, done =>
    match hexValue? c with
    | none => none
    | some digit =>
      let value := 16 * value + digit
      match missing with
      | missing + 1 => decodeFrom (.code missing value) rest done
      | 0 =>
        match scalar? value with
        | some d => decodeFrom .plain rest (d :: done)
        | none => none

def decode (content : List Char) : Option (List Char) :=
  decodeFrom .plain content []

/-- A line feed right behind opening quotes is dropped. -/
def dropFirstLineFeed : List Char → List Char
  | '\n' :: rest => rest
  | cs => cs

def readString? : List Char → Option (List Char × List Char)
  | '"' :: rest =>
    (cutLine '"' true false rest []).bind fun (content, rest) =>
      (decode content).map fun s => (s, rest)
  | '\'' :: rest => cutLine '\'' false false rest []
  | _ => none

def readAnyString? : List Char → Option (List Char × List Char)
  | '"' :: '"' :: '"' :: rest =>
    (cutLines '"' true false (dropFirstLineFeed rest) []).bind fun (content, rest) =>
      (decode content).map fun s => (s, rest)
  | '\'' :: '\'' :: '\'' :: rest => cutLines '\'' false false (dropFirstLineFeed rest) []
  | cs => readString? cs

end SettingsFile

end Calculator
