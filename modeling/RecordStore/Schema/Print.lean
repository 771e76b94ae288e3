import RecordStore.Text.Json
import RecordStore.Schema.Basic

/-!
# Printed schemas

A schema is printed as a JSON object of its ordinal, its format text and its kind. Separators are
shown escaped.

## Main definitions

* `Schema.json` — the object.
* `Schema.print` — its text.
-/

namespace RecordStore

open Json (Text)

def separatorJson (sep : Bytes) : Text := Json.text (Escape.print sep)

def Field.json (f : Field) : Text :=
  Json.object [("prim", Json.text f.prim.name), ("sep", separatorJson f.sep)]

def Shape.json (s : Shape) : Text :=
  Json.object
    [("leading", separatorJson s.leading), ("fields", Json.array (s.fields.map Field.json))]

def Layout.json : Layout → Text
  | .primitive prim => Json.object [("Primitive", Json.text prim.name)]
  | .struct shape => Json.object [("Struct", shape.json)]
  | .structs shape =>
    Json.object [("StructSequence",
      Json.object [("shape", shape.json), ("raw_bytes", Json.bool shape.isRawByte)])]

def argsJson (args : List String) : Text := Json.array (args.map Json.text)

def nodeJson (label : Label) (kind : Text) : Text :=
  Json.object
    [("ordinal", Json.number label.ordinal), ("source", Json.text label.source), ("kind", kind)]

def FlatNode.json (node : FlatNode) : Text := nodeJson node.label node.layout.json

def KeySpec.json (keys : KeySpec) (value : Text) : Text :=
  Json.object [("Keyed",
    Json.object
      [("key", keys.node.json), ("key_sep", separatorJson keys.sep), ("value", value),
        ("ordered", Json.bool keys.ordered), ("args", argsJson keys.args)])]

def Schema.json : Schema → Text
  | .flat node => node.json
  | .sequence label element sep args =>
    nodeJson label <| Json.object [("Sequence",
      Json.object
        [("element", element.json), ("sep", separatorJson sep), ("args", argsJson args)])]
  | .set label keys => nodeJson label (keys.json Json.null)
  | .map label keys value sep =>
    nodeJson label <| keys.json <|
      Json.object [("node", value.json), ("sep", separatorJson sep)]
  | .pair label first second sep =>
    nodeJson label <| Json.object [("Pair",
      Json.object
        [("first", first.json), ("second", second.json), ("sep", separatorJson sep)])]

def Schema.print (s : Schema) : String := s.json.render

end RecordStore
