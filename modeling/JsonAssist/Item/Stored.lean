import JsonAssist.Item.Catalog
import JsonAssist.Notice

namespace JsonAssist

/-- The catalog in a file; an empty one, with a notice, if the file cannot be read. -/
def Catalog.load (files : Files) (path : String) : Catalog × List Notice :=
  match files.readText path with
  | .ok text => (Catalog.parse text, [])
  | .error cause => (.empty, [.unreadableItems path cause])

end JsonAssist
