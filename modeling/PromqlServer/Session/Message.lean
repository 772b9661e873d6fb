import PromqlServer.Document.Uri
import PromqlServer.Json.Basic
import PromqlServer.Text.Position

/-!
What a client tells a session, once its parameters are read.
-/

namespace PromqlServer.Session

open PromqlServer.Document PromqlServer.Text

/-- A change of a document. A change of a part of the text has a range; one without replaces the
whole text. -/
structure Change where
  range : Option Range
  text : String
  deriving DecidableEq, Repr

inductive Message where
  | handshake (options : Option Json)
  | ready
  | shutdown
  | opened (uri : Uri) (text : String) (version : Int)
  | changed (uri : Uri) (version : Int) (changes : List Change)
  | closed (uri : Uri)
  | configured (settings : Json)
  | complete (uri : Uri) (position : Position)
  deriving Repr

/-- The backend that settings name: the field `url` of the section `promql`, or the field `url` if
there is no such one. -/
def urlSetting (settings : Json) : Option String :=
  let nested := (settings.lookup "promql").bind fun part => part.lookup "url"
  (nested.or (settings.lookup "url")).bind Json.asString?

end PromqlServer.Session
