import LiveJson.Store.Error
import LiveJson.Text.Basic

/-! Where a document can be fetched from. Text without `://` is relative and left to the source;
any other text has to be a URL. How URLs are read is not decided here. -/

namespace LiveJson

/-- Reads a text as a URL and gives the URL in its normal form, or nothing if it is none. -/
class UrlReader where
  read? : String → Option String

inductive Location where
  | absolute (url : String)
  | relative (text : String)
deriving DecidableEq, Repr

namespace Location

/-- Whether the text has `://` in it. -/
def hasAuthority : List Char → Bool
  | [] => false
  | c :: cs => ([':', '/', '/'].isPrefixOf (c :: cs)) || hasAuthority cs

def parse [UrlReader] (text : String) : Except StoreError Location :=
  let cs := Text.trim text.toList
  if cs.isEmpty then .error (.invalidSource "")
  else if hasAuthority cs then
    match UrlReader.read? (String.ofList cs) with
    | some url => .ok (absolute url)
    | none => .error (.invalidSource (String.ofList cs))
  else .ok (relative (String.ofList cs))

def toText : Location → String
  | absolute url => url
  | relative text => text

end Location

end LiveJson
