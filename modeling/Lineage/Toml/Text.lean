import Lineage.Text.Hex
import Lineage.Toml.Step

/-! Texts and keys in TOML. -/

namespace Lineage.Toml

open Lineage.Text Step

/-- The text up to a mark, which must come, and none of which is of a class. -/
def splitAtMark? (mark : List Char) (illegal : Char → Bool) :
    List Char → Option (List Char × List Char)
  | [] => none
  | c :: rest =>
    if mark.isPrefixOf (c :: rest) then some ([], (c :: rest).drop mark.length)
    else if illegal c then none
    else (splitAtMark? mark illegal rest).map fun (text, after) => (c :: text, after)

/-- The text up to a mark, which is taken too. -/
def takeUntil (mark : List Char) (illegal : Char → Bool) : Step (List Char) := do
  match splitAtMark? mark illegal (← get) with
  | none => malformed
  | some (text, after) => do
    set after
    return text

/-- A text on one line between apostrophes, behind the first of them. -/
def literalText : Step (List Char) :=
  takeUntil ['\''] isControl

/-- A character given by its code point in so many hexadecimal digits. Surrogates are no
characters. -/
def codePoint (width : Nat) : Step (List Char) := do
  let digits := (← get).take width
  advance width
  match hexNumber? digits with
  | some value =>
    if digits.length == width && value.isValidChar then return [Char.ofNat value] else malformed
  | none => malformed

/-- The character that a backslash and a letter stand for. -/
def escapedLetter? : Char → Option Char
  | 'b' => some '\x08'
  | 't' => some '\t'
  | 'n' => some '\n'
  | 'f' => some '\x0c'
  | 'r' => some '\r'
  | '"' => some '"'
  | '\\' => some '\\'
  | _ => none

/-- What an escape sequence stands for, behind its backslash. In a text of several lines a backslash
at the end of a line takes away the break and all blanks behind it. -/
def escape (multiline : Bool) : Step (List Char) := do
  match ← peek with
  | none => malformed
  | some c =>
    advance 1
    if multiline && isTomlGap c then
      if c != '\n' then
        skipAll isTomlBlank
        match ← peek with
        | none => return []
        | some '\n' => advance 1
        | some _ => malformed
      skipAll isTomlGap
      return []
    else if c == 'u' then codePoint 4
    else if c == 'U' then codePoint 8
    else
      match escapedLetter? c with
      | some letter => return [letter]
      | none => malformed

/-- The rest of a text between quotes, on one line or on several. The first argument bounds its
length. -/
def basicText (multiline : Bool) : Nat → Step (List Char)
  | 0 => malformed
  | budget + 1 => do
    match ← peek with
    | none => malformed
    | some '"' =>
      if !multiline then
        advance 1
        return []
      else if ← sees ['"', '"', '"'] then
        advance 3
        return []
      else
        advance 1
        return '"' :: (← basicText multiline budget)
    | some '\\' =>
      advance 1
      let meaning ← escape multiline
      return meaning ++ (← basicText multiline budget)
    | some c =>
      if isControl c && !(multiline && c == '\n') then malformed
      else
        advance 1
        return c :: (← basicText multiline budget)

/-- A text on one line between quotes, behind the first of them. -/
def quotedText : Step (List Char) := do
  basicText false ((← get).length + 1)

/-- Up to two further delimiters right behind the three that close a text belong to it. -/
def furtherDelimiters (delimiter : Char) : Step (List Char) := do
  let further := ((← get).takeWhile (· == delimiter)).take 2
  advance further.length
  return further

/-- A text of several lines, behind the three delimiters that open it. A line feed right behind them
is left out. -/
def multilineText (delimiter : Char) : Step (List Char) := do
  if ← sees ['\n'] then advance 1
  let text ←
    if delimiter == '\'' then takeUntil ['\'', '\'', '\''] fun c => isControl c && c != '\n'
    else do basicText true ((← get).length + 1)
  return text ++ (← furtherDelimiters delimiter)

/-- Characters of a key that needs no quotes. -/
def isBareKeyChar (c : Char) : Bool :=
  c.isAlphanum || c == '-' || c == '_'

/-- One part of a key. -/
def keyPart : Step String := do
  match ← peek with
  | some '\'' => do
    advance 1
    return String.ofList (← literalText)
  | some '"' => do
    advance 1
    return String.ofList (← quotedText)
  | _ => do
    let bare ← takeAll isBareKeyChar
    if bare.isEmpty then malformed else return String.ofList bare

/-- The further parts of a key, each behind a dot, and the blanks behind them. -/
def moreKeyParts : Nat → Step (List String)
  | 0 => return []
  | budget + 1 => do
    skipAll isTomlBlank
    if ← sees ['.'] then
      advance 1
      skipAll isTomlBlank
      let part ← keyPart
      return part :: (← moreKeyParts budget)
    else return []

/-- A key: its parts from the outermost to the innermost. -/
def key : Step (List String) := do
  let first ← keyPart
  return first :: (← moreKeyParts ((← get).length + 1))

end Lineage.Toml
