import MooScript.Word

/-! The part of TOML that settings need: keys with strings and integers. -/
namespace MooScript.Toml

inductive Setting
  | string (s : String)
  | integer (n : Int64)

def isBlank (c : Char) : Bool := c == ' ' || c == '\t'

def skipBlanks (cs : List Char) : List Char := cs.dropWhile isBlank

/-- Characters that may stand in a comment or a string: no controls but the tab. -/
def isText (c : Char) : Bool := c == '\t' || (0x20 ≤ c.toNat && c.toNat != 0x7f)

/-- What follows a line break at the front. -/
def afterBreak? : List Char → Option (List Char)
  | '\n' :: cs => some cs
  | '\r' :: '\n' :: cs => some cs
  | _ => none

/-- What follows the end of a line, after blanks and a comment. -/
def afterLine? (cs : List Char) : Option (List Char) :=
  let rest := match skipBlanks cs with
    | '#' :: comment => comment.dropWhile isText
    | rest => rest
  if rest.isEmpty then some [] else afterBreak? rest

/-! ### Strings -/

def hexDigit? (c : Char) : Option Nat :=
  if c.isDigit then some (c.toNat - '0'.toNat)
  else if 'a' ≤ c ∧ c ≤ 'f' then some (c.toNat - 'a'.toNat + 10)
  else if 'A' ≤ c ∧ c ≤ 'F' then some (c.toNat - 'A'.toNat + 10)
  else none

/-- The character whose code point the digits give, to base 16. -/
def ofHexDigits? (digits : List Char) : Option Char := do
  let values ← digits.mapM hexDigit?
  let n := values.foldl (fun n d => 16 * n + d) 0
  if n.isValidChar then some (Char.ofNat n) else none

def escape? : Char → Option Char
  | 'b' => some '\x08'
  | 't' => some '\t'
  | 'n' => some '\n'
  | 'f' => some '\x0c'
  | 'r' => some '\r'
  | '\x22' => some '\x22'
  | '\\' => some '\\'
  | _ => none

/-- Puts a character before a string that was read. -/
def cons (c : Char) (read : List Char × List Char) : List Char × List Char :=
  (c :: read.1, read.2)

/-- A string on one line with escapes, after its opening quote. -/
def basic? : List Char → Option (List Char × List Char)
  | [] => none
  | '\x22' :: cs => some ([], cs)
  | '\\' :: 'u' :: a :: b :: c :: d :: cs => do
    let ch ← ofHexDigits? [a, b, c, d]
    return cons ch (← basic? cs)
  | '\\' :: 'U' :: a :: b :: c :: d :: e :: f :: g :: h :: cs => do
    let ch ← ofHexDigits? [a, b, c, d, e, f, g, h]
    return cons ch (← basic? cs)
  | '\\' :: c :: cs => do
    let ch ← escape? c
    return cons ch (← basic? cs)
  | c :: cs => if isText c then (basic? cs).map (cons c) else none

/-- A string on one line without escapes, after its opening quote. -/
def literal? : List Char → Option (List Char × List Char)
  | [] => none
  | '\x27' :: cs => some ([], cs)
  | c :: cs => if isText c then (literal? cs).map (cons c) else none

/-- A string of many lines with escapes, after its opening quotes. Up to two quotes may stand
before the closing ones. While `trimming`, after a backslash that ends a line, blanks and line
breaks are passed over. -/
def basicLines? (trimming : Bool) : List Char → Option (List Char × List Char)
  | [] => none
  | '\x22' :: '\x22' :: '\x22' :: '\x22' :: '\x22' :: cs => some (['\x22', '\x22'], cs)
  | '\x22' :: '\x22' :: '\x22' :: '\x22' :: cs => some (['\x22'], cs)
  | '\x22' :: '\x22' :: '\x22' :: cs => some ([], cs)
  | '\r' :: '\n' :: cs =>
    if trimming then basicLines? true cs else (basicLines? false cs).map (cons '\n')
  | '\n' :: cs =>
    if trimming then basicLines? true cs else (basicLines? false cs).map (cons '\n')
  | '\\' :: 'u' :: a :: b :: c :: d :: cs => do
    let ch ← ofHexDigits? [a, b, c, d]
    return cons ch (← basicLines? false cs)
  | '\\' :: 'U' :: a :: b :: c :: d :: e :: f :: g :: h :: cs => do
    let ch ← ofHexDigits? [a, b, c, d, e, f, g, h]
    return cons ch (← basicLines? false cs)
  | '\\' :: c :: cs => match escape? c with
    | some ch => (basicLines? false cs).map (cons ch)
    | none =>
      if (afterBreak? (skipBlanks (c :: cs))).isNone then none
      else if c = '\r' || c = '\n' || isBlank c then basicLines? true cs
      else none
  | c :: cs =>
    if trimming && isBlank c then basicLines? true cs
    else if isText c && c != '\\' then (basicLines? false cs).map (cons c)
    else none

/-- A string of many lines without escapes, after its opening quotes. -/
def literalLines? : List Char → Option (List Char × List Char)
  | [] => none
  | '\x27' :: '\x27' :: '\x27' :: '\x27' :: '\x27' :: cs => some (['\x27', '\x27'], cs)
  | '\x27' :: '\x27' :: '\x27' :: '\x27' :: cs => some (['\x27'], cs)
  | '\x27' :: '\x27' :: '\x27' :: cs => some ([], cs)
  | '\r' :: '\n' :: cs => (literalLines? cs).map (cons '\n')
  | c :: cs => if isText c || c == '\n' then (literalLines? cs).map (cons c) else none

/-- Drops the line break that may follow opening quotes. -/
def dropBreak (cs : List Char) : List Char := (afterBreak? cs).getD cs

/-! ### Integers -/

/-- The value of digits to a base, with single underscores between them. -/
def digits? (base : Nat) (cs : List Char) : Option Nat := do
  let groups := cs.splitOnP (· == '_')
  if groups.any List.isEmpty then none
  else
    let values ← groups.flatten.mapM hexDigit?
    if values.all (· < base) then some (values.foldl (fun n d => base * n + d) 0) else none

/-- Decimal digits, of which only a lone one may be zero at the front. -/
def decimal? : List Char → Option Nat
  | '0' :: _ :: _ => none
  | cs => digits? 10 cs

/-- An integer of 64 bits: decimal under a sign, or to base 16, 8 or 2. -/
def integer? (cs : List Char) : Option Int64 := do
  let n : Int ← match cs with
    | '0' :: 'x' :: cs => (digits? 16 cs).map Int.ofNat
    | '0' :: 'o' :: cs => (digits? 8 cs).map Int.ofNat
    | '0' :: 'b' :: cs => (digits? 2 cs).map Int.ofNat
    | '+' :: cs => (decimal? cs).map Int.ofNat
    | '-' :: cs => (decimal? cs).map fun n => -(n : Int)
    | cs => (decimal? cs).map Int.ofNat
  Word.int64? n

/-! ### Documents -/

def isKeyChar (c : Char) : Bool := c.isAlphanum || c == '_' || c == '-'

def isNumberChar (c : Char) : Bool := isKeyChar c || c == '+'

/-- A string at the front of a text. -/
def string? : List Char → Option (List Char × List Char)
  | '\x22' :: '\x22' :: '\x22' :: cs => basicLines? false (dropBreak cs)
  | '\x22' :: cs => basic? cs
  | '\x27' :: '\x27' :: '\x27' :: cs => literalLines? (dropBreak cs)
  | '\x27' :: cs => literal? cs
  | _ => none

/-- A key at the front of a text: bare, or a string on one line. -/
def key? (cs : List Char) : Option (List Char × List Char) :=
  match cs with
  | '\x22' :: cs => basic? cs
  | '\x27' :: cs => literal? cs
  | cs =>
    let name := cs.takeWhile isKeyChar
    if name.isEmpty then none else some (name, cs.dropWhile isKeyChar)

def setting? (cs : List Char) : Option (Setting × List Char) :=
  match string? cs with
  | some (text, rest) => some (.string (String.ofList text), rest)
  | none => do
    let n ← integer? (cs.takeWhile isNumberChar)
    return (.integer n, cs.dropWhile isNumberChar)

/-- A key, an equals sign and a value, with the rest of their line. -/
def entry? (cs : List Char) : Option ((String × Setting) × List Char) := do
  let (key, rest) ← key? cs
  match skipBlanks rest with
  | '=' :: rest =>
    let (setting, rest) ← setting? (skipBlanks rest)
    let rest ← afterLine? rest
    return ((String.ofList key, setting), rest)
  | _ => none

/-- At most `lines` lines, of which each holds an entry or none. -/
def entries? : (lines : Nat) → List Char → Option (List (String × Setting))
  | _, [] => some []
  | 0, _ => none
  | lines + 1, cs => match afterLine? cs with
    | some rest => entries? lines rest
    | none => do
      let (entry, rest) ← entry? (skipBlanks cs)
      let more ← entries? lines rest
      return entry :: more

/-- The settings of a document, in order; a byte order mark may stand in front. -/
def read? (document : String) : Option (List (String × Setting)) :=
  let cs := match document.toList with
    | '\ufeff' :: cs => cs
    | cs => cs
  entries? (cs.length + 1) cs

end MooScript.Toml
