import Newth.Client.SiteHttp
import Newth.Client.Uri
import Newth.Client.Xml
import Newth.Common.Hex

namespace Newth.Client.Listing

open Newth.Common.Hex
open Newth.Library.ByteString
open Newth.Library.Call
open Newth.Client.Recvbufr
open Newth.Client.SiteHttp
open Newth.Client.Uri
open Newth.Client.Xml

section Elements

def fastForwardToElement (self : HttpSite) (element : Bytes) : Except Stop HttpSite := do
  let (socket, _) ← recvBufferFindAndDitch self.socket (text "<" ++ element)
  .ok { self with socket }

def bufferToEndElement (self : HttpSite) (element : Bytes) :
    Except Stop (HttpSite × Option ErrorMessage) := do
  let (socket, r) ← recvBufferFindAndFetch self.socket (text "</" ++ element ++ text ">") 2048
  .ok ({ self with socket }, r)

def fastForwardOverElement (self : HttpSite) (element : Bytes) : Except Stop HttpSite := do
  let self ← fastForwardToElement self element
  let fetched ← recvBufferFetch self.socket 0 2047
  match xmlExtractElement (cString (fetched.toOption.getD [])) element with
  | some found => .ok { self with socket := recvBufferDitch self.socket found.length }
  | none => .ok self

/-- The value of the next `href`, as far as there is one. -/
def htmlExtractNextLink (self : HttpSite) : Except Stop (HttpSite × Option Bytes) := do
  let self ← fastForwardToElement self (text "a")
  let (self, e) ← bufferToEndElement self (text "a")
  if e.isSome then .ok (self, none)
  else do
    let fetched ← recvBufferFetch self.socket 0 2048
    match fetched with
    | .error _ => .ok (self, none)
    | .ok buf =>
        let value := do
          let e ← xmlFindElement (text "a") (cString buf)
          let a ← xmlFindAttribute e (text "href")
          xmlExtractAttributeValue a
        match value with
        | none => .ok (self, none)
        | some v => do
            let self ← fastForwardOverElement self (text "a")
            .ok (self, some v)

end Elements

section Entries

/-- The branch of `LinkPathIsDirectSub` for a whole URI. -/
def linkUriIsDirectSub (path : UriDetails) (link : Bytes) : Except Stop Bool :=
  let linkUri := uriDetailsNewFrom link
  if linkUri.scheme.isSome ∧ linkUri.scheme = path.scheme ∧ linkUri.host.isSome ∧
      linkUri.host = path.host ∧ uriDetailsGetPort linkUri = uriDetailsGetPort path then
    match linkUri.path, path.path with
    | some linkPath, some sitePath =>
        if sitePath <+: linkPath then
          -- with the same path, `&linkUri.path[strlen(path->path) + 1]` is behind the terminator
          if linkPath.length ≤ sitePath.length then .error .outOfBounds
          else .ok (!(linkPath.drop (sitePath.length + 1)).contains (ascii '/'))
        else .ok false
    | _, _ => .error .outOfBounds
  else .ok false

def linkPathIsDirectSub (path : UriDetails) (link : Bytes) : Except Stop Bool :=
  if (strstr link (text "://")).isSome then linkUriIsDirectSub path link
  else if link.head? = some (ascii '.') then .ok false
  else if link.head? = some (ascii '/') then
    match path.path with
    | none => .error .outOfBounds
    | some sitePath =>
        if ¬ sitePath <+: link then .ok false
        else if link.length ≤ sitePath.length ∨
            (sitePath.length + 1 = link.length ∧ link.getD sitePath.length 0 = ascii '/') then
          .ok false
        else
          match strchr (link.drop (sitePath.length + 1)) (ascii '/') with
          | some last => .ok (sitePath.length + 1 + last + 1 = link.length)
          | none => .ok true
  else .ok true

/-- `LinkPathConvertToRelativeSubdirectory`, with `p` the name found so far. -/
def relativeFrom (p : Bytes) : Bytes → Bytes
  | [] => p
  | c :: rest =>
      if c = ascii '/' ∧ rest ≠ [] ∧ rest.head? ≠ some (ascii '/') then relativeFrom rest rest
      else relativeFrom p rest

def linkPathConvertToRelativeSubdirectory (link : Bytes) : Bytes := relativeFrom link link

/-- The name an accepted link is listed under. -/
def entryName (file : Bytes) : Except Stop Bytes :=
  hexConvertStringToAscii
    ((linkPathConvertToRelativeSubdirectory file).takeWhile (· != ascii '/'))

/-- One turn of the loop that reads the links, with the names added so far. -/
def listingTurn (details : UriDetails) :
    HttpSite × List Bytes →
      Except Stop (Turn (HttpSite × List Bytes) (HttpSite × List Bytes))
  | (self, entry) => do
      let (self, link) ← htmlExtractNextLink self
      match link with
      | none => .ok (.leave (self, entry))
      | some link => do
          let file := link.takeWhile (· != ascii '?')
          if file = [] ∧ link ≠ [] then .ok (.again (self, entry))
          else if ← linkPathIsDirectSub details file then do
            let n ← entryName file
            .ok (.again (self, entry ++ [n]))
          else .ok (.again (self, entry))

/-- `httpSiteSchemeDirectoryListingOpen` from where it reads the body on: the names
listed, or `none` for a null pointer. -/
def directoryListing (self : HttpSite) (details : UriDetails) (absPath : Bytes) :
    Except Stop (HttpSite × Option (List Bytes)) := do
  let self ← fastForwardToElement self (text "body")
  let self ← fastForwardOverElement self (text "body")
  let fuel := 2 * (self.socket.len + self.socket.serverSocket.rest.length) + 2
  let (self, entry) ← run (listingTurn { details with path := some absPath }) fuel (self, [])
  .ok ({ self with socket := recvBufferClear self.socket },
    if entry = [] then none else some entry)

end Entries

end Newth.Client.Listing
