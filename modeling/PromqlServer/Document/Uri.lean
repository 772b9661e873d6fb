import PromqlServer.Url.Parser

/-!
Document identifiers: URLs, which are the same if their normal forms are.
-/

namespace PromqlServer.Document

structure Uri where
  text : String
  deriving DecidableEq, Repr

def Uri.parse (text : String) : Except Url.ParseError Uri :=
  (Url.parse text).map fun url => ⟨url.write⟩

end PromqlServer.Document
