import Folio.Path.Basic

/-!
# Cleaned paths

Cleaning is lexical: a step up cancels the name before it, at the root it is dropped, and in front of
a relative path it stays. What a link would do is not asked.
-/
namespace Folio.Path

/-- Put one component on a cleaned path, which stands here innermost component first. -/
def cleanStep (done : List Component) : Component → List Component
  | .here => done
  | .up =>
    match done with
    | .root :: _ => done
    | .name _ :: outer => outer
    | _ => .up :: done
  | c => c :: done

def cleanComponents (components : List Component) : List Component :=
  (components.foldl cleanStep []).reverse

/-- The path without dots and without steps up that a name in front of them cancels. -/
def clean (p : Path) : Path :=
  match cleanComponents p.components with
  | [] => ⟨[dot]⟩
  | cs => ⟨written cs⟩

end Folio.Path
