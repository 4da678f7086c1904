import LicenseHeader.Style
import LicenseHeader.Text

/-! License texts, the headers they make in a comment style, and the headers kept by extension. -/
namespace LicenseHeader

structure License where
  text : String
deriving DecidableEq, Repr

namespace License

/-- The license a file holds: byte order marks at its start go, then the blanks at both
ends. -/
def ofRaw (raw : String) : License :=
  ⟨Text.trim (String.ofList (raw.toList.dropWhile (· == Text.byteOrderMark)))⟩

end License

def Style.comment (style : Style) (line : String) : String :=
  Text.trimEnd (style.lead ++ line)

/-- The lines of a header. The opening and closing lines of a block stand as they are. -/
def Style.headerLines (style : Style) (text : String) : List String :=
  let body := (Text.lines text).map style.comment
  match style with
  | .line _ => body
  | .block opening _ closing => opening :: body ++ [closing]

def Style.header (style : Style) (text : String) : String :=
  Text.unlines (style.headerLines text)

structure HeaderCache where
  license : License
  headers : List (String × String)
deriving Repr

namespace HeaderCache

def new (license : License) : HeaderCache := ⟨license, []⟩

/-- The header of an extension, made in the style given if there is none yet, and the cache
that holds it. -/
def get (c : HeaderCache) (extension : String) (style : Style) : String × HeaderCache :=
  match c.headers.lookup extension with
  | some header => (header, c)
  | none =>
    let header := style.header c.license.text
    (header, { c with headers := (extension, header) :: c.headers })

def size (c : HeaderCache) : Nat :=
  c.headers.length

def isEmpty (c : HeaderCache) : Bool :=
  c.headers.isEmpty

end HeaderCache
end LicenseHeader
