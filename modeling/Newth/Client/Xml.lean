import Newth.Library.Call
import Newth.Platform.FindString

namespace Newth.Client.Xml

open Newth.Library.ByteString
open Newth.Library.Call
open Newth.Platform.FindString

/-- `end && end < next`, behind a `<`: the element closes, and another one follows. -/
def closesBeforeNext (rest : Bytes) : Bool :=
  match strchr rest (ascii '>'), strchr rest (ascii '<') with
  | some e, some next => e < next
  | _, _ => false

/-- Whether what follows `<` and spaces starts with the element's name. -/
def namesElement (p element : Bytes) : Bool :=
  let sw := p.dropWhile fun c => c == ascii ' ' || c == ascii '<'
  sw != [] && (sw.take element.length).map toupper == element.map toupper

/-- `XmlFindElement`; the pointer it returns is the text from there on. -/
def xmlFindElement (element : Bytes) : Bytes → Option Bytes
  | [] => none
  | c :: rest =>
      if c = ascii '<' ∧ closesBeforeNext rest ∧ namesElement (c :: rest) element then
        some (c :: rest)
      else xmlFindElement element rest

def xmlExtractElement (xml element : Bytes) : Option Bytes := do
  let p ← xmlFindElement element xml
  let e ← strchr p (ascii '>')
  if e = 0 then none else some (p.take (e + 1))

def xmlElementGetAttributes (element : Bytes) : Option Bytes := do
  let start ← strchr element (ascii '<')
  let p := element.drop start
  let e ← strchr p (ascii '>')
  if (strchr (p.drop 1) (ascii '<')).any (· + 1 < e) then none
  else
    let spaces := ((p.drop 1).takeWhile (· == ascii ' ')).length
    let i ← (strchr (p.drop (1 + spaces)) (ascii ' ')).map (· + 1 + spaces)
    if e < i then none else some ((p.take e).drop (i + 1))

/-- `XmlFindAttribute`; the pointer it returns is the text from there on. -/
def xmlFindAttribute (element attr : Bytes) : Option Bytes := do
  let a ← xmlElementGetAttributes element
  let t ← platformStringFindWord a attr
  let f ← strstr element a
  some (element.drop (f + t))

def xmlExtractAttributeValue (attr : Bytes) : Option Bytes := do
  let eq ← strchr attr (ascii '=')
  let quoted := attr.drop eq
  let upTo (q : Nat) : Bytes := (quoted.drop (q + 1)).takeWhile (· != quoted.getD q 0)
  match strchr quoted (ascii '\''), strchr quoted (ascii '"') with
  | some singleQuote, some doubleQuote => some (upTo (min singleQuote doubleQuote))
  | some singleQuote, none => some (upTo singleQuote)
  | none, some doubleQuote => some (upTo doubleQuote)
  | none, none => some (quoted.drop 1)

/-- The kind of quote that comes next behind the first `=`. -/
def quoteKind (attr : Bytes) : Option UInt8 := do
  let eq ← strchr attr (ascii '=')
  let quoted := attr.drop eq
  match strchr quoted (ascii '\''), strchr quoted (ascii '"') with
  | some singleQuote, some doubleQuote =>
      some (if singleQuote < doubleQuote then ascii '\'' else ascii '"')
  | some _, none => some (ascii '\'')
  | none, some _ => some (ascii '"')
  | none, none => none

/-- `XmlExtractAttribute`. A value without quotes is printed with a NUL for each of them,
which the array that is allocated has no room for. -/
def xmlExtractAttribute (element attr : Bytes) : Except Stop (Option Bytes) :=
  match xmlElementGetAttributes element with
  | none => .ok none
  | some a =>
      match platformStringFindWord a attr with
      | none => .ok none
      | some t =>
          let t := a.drop t
          let i := t.take attr.length
          match xmlExtractAttributeValue t with
          | none => .ok (some i)
          | some v =>
              match quoteKind t with
              | none => .error .outOfBounds
              | some qc => .ok (some (i ++ ascii '=' :: qc :: (v ++ [qc])))

example : (xmlFindAttribute (text "<A HREF=\"/d/x\">x</A>") (text "href")).bind
    xmlExtractAttributeValue = some (text "/d/x") := by
  decide

end Newth.Client.Xml
