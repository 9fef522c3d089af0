import Folio.Text.Basic

/-!
# YAML tokens

The marks of collections are tokens whether they are written or only shown by indentation. The end of
the tokens is the end of the stream.
-/
namespace Folio.Yaml

inductive Token where
  | version (major minor : Nat)
  /-- A directive that declares the handle of tags. -/
  | handle (name : Text)
  | documentStart
  | documentEnd
  | blockSequence
  | blockMapping
  /-- The end of a collection that indentation shows. -/
  | blockEnd
  | sequenceOpen
  | sequenceClose
  | mappingOpen
  | mappingClose
  /-- The hyphen in front of an item. -/
  | item
  | comma
  | key
  | value
  | alias (name : Text)
  | anchor (name : Text)
  /-- A tag with the handle it uses, which is empty if it uses none. -/
  | tag (handle : Text)
  | scalar (text : Text) (plain : Bool)
  deriving DecidableEq

end Folio.Yaml
