import RecordStore.Codec.Text
import RecordStore.Store.Sink
import RecordStore.Text.Quoted

/-!
# Building containers

Building sends delimited text through a schema, level by level. A container node keeps the parts
of its records that can be decoded, writes its section, stages the canonical text of the parts
behind a delimiter, and has its child built from there. Parts that cannot be decoded, or whose
text would not be read back whole, are skipped and counted.

## Main definitions

* `BuildError` — why a build stops.
* `Build` — building, with the output so far.
* `Opener` — a way to open areas, which is all that tells a build in memory from one on disk.
* `Opener.buildNode`, `buildNode` — builds one node from its input.
* `Opener.build`, `build` — builds a container file.
-/

namespace RecordStore

/-! ## Outcomes -/

inductive BuildError
  | staged (cause : StagingError)
  /-- The directory for staging files cannot be made. -/
  | staging (name parent : String) (cause : SystemError)
  | instanceMismatch (ordinal expected actual : Nat)
  | encode (cause : DecodeError)
  deriving DecidableEq, Repr

namespace BuildError

def message : BuildError → String
  | staged cause => s!"I/O error: {cause.message}"
  | staging name parent cause =>
    s!"staging area {name} in {Quoted.quote parent}: {cause.message}"
  | instanceMismatch ordinal expected actual =>
    s!"node {ordinal} produced {actual} instance(s), expected {expected}"
  | encode cause => s!"value re-encoding failed: {cause.message}"

def cause? : BuildError → Option String
  | staged cause => some cause.message
  | staging _ _ cause => some cause.message
  | instanceMismatch .. => none
  | encode cause => some cause.message

end BuildError

structure BuildSummary where
  /-- Instances of the root. -/
  instances : Nat
  /-- Skipped parts over all levels. -/
  skipped : Nat
  bytesWritten : Nat
  deriving DecidableEq, Repr

structure Progress where
  output : Array UInt8
  skipped : Nat
  directory : Directory
  deriving DecidableEq, Repr

/-- Building. A failure keeps the output written before it. -/
abbrev Build := EStateM BuildError Progress

namespace Build

def emit (bytes : Bytes) : Build Unit :=
  modify fun ⟨output, skipped, directory⟩ => ⟨output.appendList bytes, skipped, directory⟩

def skip (count : Nat) : Build Unit := modify fun p => { p with skipped := p.skipped + count }

/-! ## Staging -/

def onDirectory {α : Type} (run : Directory → α × Directory) : Build α :=
  modifyGet fun ⟨output, skipped, directory⟩ =>
    let (a, directory) := run directory
    (a, ⟨output, skipped, directory⟩)

def openArea (onDisk : Bool) (ordinal : Nat) (role : String) : Build Area :=
  onDirectory (Area.create onDisk (Area.nameOf ordinal role))

def closeArea (area : Area) : Build Unit := onDirectory fun d => ((), area.close d)

def write (area : Area) (bytes : Bytes) : Build Area := onDirectory (area.write bytes)

def writeRecord (delim : Bytes) (area : Area) (text : Bytes) : Build Area := do
  write (← write area text) delim

def append (area : Area) (payload : Bytes) : Build (Area.Handle × Area) :=
  onDirectory fun d =>
    let (handle, area, d) := area.append payload d
    ((handle, area), d)

def read (area : Area) (handle : Area.Handle) : Build (Bytes × Area) := do
  let (payload, area) ← onDirectory fun d =>
    let (payload, area, d) := area.read handle d
    ((payload, area), d)
  match payload with
  | .ok payload => return (payload, area)
  | .error cause => throw (.staged cause)

def contents (area : Area) : Build (Bytes × Area) :=
  onDirectory fun d =>
    let (bytes, area, d) := area.contents d
    ((bytes, area), d)

end Build

/-! ## Parts of records -/

def kept {α : Type} (parts : List (Option α)) : List α := parts.filterMap id

def missing {α : Type} (parts : List (Option α)) : Nat := parts.countP Option.isNone

def canonical? (schema : Schema) (chunk : Bytes) : Option Bytes :=
  match decode schema chunk with
  | .ok value => (encode schema value).toOption
  | .error _ => none

/-- The canonical text of a chunk, if a delimiter behind it gives it back. -/
def restage? (schema : Schema) (delim chunk : Bytes) : Option Bytes :=
  (canonical? schema chunk).filter fun text => Records.delimitsCleanly text delim

def keyBytes? (keys : KeySpec) (text : Bytes) : Option Bytes :=
  ((keys.decodeKey text).map (·.1)).toOption

def restageKeyed? (keys : KeySpec) (value : Schema) (sep : Bytes) :
    Records.Entry → Option (Bytes × Bytes)
  | .cut keyText valueText => do
    let key ← keyBytes? keys keyText
    return (key, ← restage? value sep valueText)
  | .broken _ => none

/-- The canonical texts of both sides of a pair. The first must be clean before the separator of
the pair, and the second before the outer delimiter, if there is one. -/
def restagePair? (first second : Schema) (sep : Bytes) (outer : Option Bytes) (chunk : Bytes) :
    Option (Bytes × Bytes) := do
  let (left, right) ← (splitPair sep chunk).toOption
  let a ← restage? first sep left
  let b ← canonical? second right
  guard (outer.all (Records.delimitsCleanly b))
  return (a, b)

/-! ## Flat nodes -/

namespace FlatNode

/-- The binary forms of values in a row, up to the first that cannot be decoded. -/
def stream (node : FlatNode) (c : Cursor) : Except DecodeError (List Bytes) :=
  if _hn : node.layout.isHollow then .ok []
  else
    match _h : node.decodeNext c with
    | .error _ _ => .ok []
    | .ok value c' => do
      let bytes ← node.write value
      return bytes :: (← node.stream c')
termination_by c.rest.length
decreasing_by exact length_rest_decodeNext_lt (by simpa using _hn) _h

def stored? (node : FlatNode) (chunk : Bytes) : Option (Except DecodeError Bytes) :=
  match node.decode chunk with
  | .ok value => some (node.write value)
  | .error _ => none

/-- Builds a flat node. Without a delimiter, primitives and structs follow each other. -/
def build (node : FlatNode) (outer : Option Bytes) (input : Bytes) : Build Nat := do
  let ordinal := node.label.ordinal
  let stored : List (Option (Except DecodeError Bytes)) :=
    (Records.splitOptional outer input).map node.stored?
  let write (values : Except DecodeError (List Bytes)) : Build (List Bytes) :=
    match values with
    | .ok values => return values
    | .error cause => throw (.encode cause)
  match node.layout, outer with
  | .primitive _, none | .struct _, none =>
    let values ← write (node.stream (.start input))
    Build.emit (Section.write .flat ordinal [] (Section.flatBody node.layout.width values))
    return values.length
  | .primitive _, some _ | .struct _, some _ =>
    Build.skip (missing stored)
    let values ← write ((kept stored).mapM id)
    Build.emit (Section.write .flat ordinal [] (Section.flatBody node.layout.width values))
    return values.length
  | .structs _, _ =>
    Build.skip (missing stored)
    let values ← write ((kept stored).mapM id)
    Build.emit (Section.write .ragged ordinal [] (Section.raggedBody node.layout.width values))
    return values.length

end FlatNode

/-! ## Containers -/

def checkInstances (schema : Schema) (expected actual : Nat) : Build Unit :=
  if expected = actual then return
  else throw (.instanceMismatch schema.ordinal expected actual)

def collectSet (sink : KeyedSink) (instances : List (List Bytes)) : KeyedSink :=
  instances.foldl
    (fun sink keys => keys.foldl (fun sink key => sink.insert key .presence) sink.startInstance)
    sink

def collectMap (sink : KeyedSink) (area : Area) (instances : List (List (Bytes × Bytes))) :
    Build (KeyedSink × Area) :=
  instances.foldlM
    (fun (sink, area) entries =>
      entries.foldlM
        (fun (sink, area) (key, payload) => do
          let (handle, area) ← Build.append area payload
          return (sink.insert key (.staged handle), area))
        (sink.startInstance, area))
    (sink, area)

/-- Copies payloads from one area to another in the given order, each with the delimiter. -/
def reorder (order : List Area.Handle) (delim : Bytes) (source target : Area) :
    Build (Area × Area) :=
  order.foldlM
    (fun (source, target) handle => do
      let (payload, source) ← Build.read source handle
      return (source, ← Build.writeRecord delim target payload))
    (source, target)

/-- A way to open areas, by the node and the role of the area. -/
abbrev Opener := (ordinal : Nat) → (role : String) → Build Area

/-- Builds a node from its input, of which each chunk before the outer delimiter is an instance;
without one the input is an instance. Gives the number of instances. -/
def Opener.buildNode (opener : Opener) :
    Schema → (outer : Option Bytes) → (input : Bytes) → Build Nat
  | .flat node, outer, input => node.build outer input
  | .sequence label element sep args, outer, input => do
    let instances := (Records.splitOptional outer input).map fun chunk =>
      (Records.split sep chunk).map (restage? element sep)
    let texts := instances.map kept
    Build.skip (missing instances.flatten)
    let area ← opener label.ordinal "v"
    let area ← texts.flatten.foldlM (Build.writeRecord sep) area
    Build.emit (Section.write .shape label.ordinal args (Section.shapeBody (texts.map List.length)))
    let (staged, area) ← Build.contents area
    let produced ← opener.buildNode element (some sep) staged
    Build.closeArea area
    checkInstances element texts.flatten.length produced
    return instances.length
  | .set label keys, outer, input => do
    let instances := (Records.splitOptional outer input).map fun chunk =>
      (Records.split keys.sep chunk).map (keyBytes? keys)
    Build.skip (missing instances.flatten)
    let sink := collectSet (.start label.ordinal keys.ordered true keys.args) (instances.map kept)
    Build.emit sink.finish.bytes
    return instances.length
  | .map label keys value sep, outer, input => do
    let instances := (Records.splitOptional outer input).map fun chunk =>
      (Records.mapEntries keys.sep sep chunk).map (restageKeyed? keys value sep)
    Build.skip (missing instances.flatten)
    let payloads ← opener label.ordinal "a"
    let (sink, payloads) ←
      collectMap (.start label.ordinal keys.ordered false keys.args) payloads (instances.map kept)
    let built := sink.finish
    Build.emit built.bytes
    let inOrder ← opener label.ordinal "b"
    let (payloads, inOrder) ← reorder built.finalOrder sep payloads inOrder
    Build.closeArea payloads
    let (staged, inOrder) ← Build.contents inOrder
    let produced ← opener.buildNode value (some sep) staged
    Build.closeArea inOrder
    checkInstances value built.entries produced
    return instances.length
  | .pair label first second sep, outer, input => do
    let sides := (Records.splitOptional outer input).map (restagePair? first second sep outer)
    let pairs := kept sides
    Build.skip (missing sides)
    let firsts ← opener label.ordinal "1"
    let seconds ← opener label.ordinal "2"
    let firsts ← (pairs.map (·.1)).foldlM (Build.writeRecord sep) firsts
    let seconds ← (pairs.map (·.2)).foldlM (Build.writeRecord (outer.getD [])) seconds
    Build.emit (Section.write .pair label.ordinal [] (Section.pairBody pairs.length))
    let (staged, firsts) ← Build.contents firsts
    let produced ← opener.buildNode first (some sep) staged
    checkInstances first pairs.length produced
    let (staged, seconds) ← Build.contents seconds
    -- an empty area has no instances, so it is split at some delimiter even at the root
    let delim := if outer.isNone && pairs.isEmpty then some sep else outer
    let produced ← opener.buildNode second delim staged
    Build.closeArea firsts
    Build.closeArea seconds
    checkInstances second pairs.length produced
    return pairs.length

def buildNode (onDisk : Bool) : Schema → (outer : Option Bytes) → (input : Bytes) → Build Nat :=
  Opener.buildNode (Build.openArea onDisk)

/-! ## Container files -/

inductive Staging
  | memory
  /-- In files of a new directory inside a parent, which the system may refuse. -/
  | disk (parent : String) (refused : Option SystemError)
  deriving DecidableEq, Repr

/-- Builds a container file. Gives the bytes written, also where the build fails. An input that
cannot be read fails behind the header. -/
def Opener.build (opener : Opener) (schema : Schema) (outer : Option Bytes)
    (input : Except SystemError Bytes) : Bytes × Except BuildError BuildSummary :=
  let run : Build Nat := do
    Build.emit (Header.write schema.source)
    match input with
    | .ok input => opener.buildNode schema outer input
    | .error cause => throw (.staged (.system cause))
  match run ⟨#[], 0, .empty⟩ with
  | .ok instances p => (p.output.toList, .ok ⟨instances, p.skipped, p.output.size⟩)
  | .error cause p => (p.output.toList, .error cause)

def build (staging : Staging) (schema : Schema) (outer : Option Bytes)
    (input : Except SystemError Bytes) : Bytes × Except BuildError BuildSummary :=
  match staging with
  | .disk parent (some cause) => ([], .error (.staging "build directory" parent cause))
  | .memory | .disk _ none =>
    Opener.build (Build.openArea (staging != .memory)) schema outer input

end RecordStore
