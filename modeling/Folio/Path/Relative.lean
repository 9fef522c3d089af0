import Folio.Path.Basic

/-!
# Names relative to a root

Inside the root a path is named by the components below the root, the root itself by a dot. A path
that is not inside the root keeps all its components.
-/
namespace Folio.Path

def rootName : Text := ['.']

def relativeTo (root p : Path) : Text :=
  match behind? root.components p.components with
  | some [] => rootName
  | some below => posix below
  | none => posix p.components

theorem relativeTo_of_components_eq {root p : Path} (h : p.components = root.components) :
    relativeTo root p = rootName := by
  have hb : behind? root.components root.components = some [] := by
    simpa using behind?_append root.components []
  simp [relativeTo, h, hb]

end Folio.Path
