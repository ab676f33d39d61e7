import ODataClient.Text.Table
import ODataClient.Value.Basic

/-! Entities created earlier in a batch. Each key gets a content id when it is first
mentioned, and keeps it. -/

namespace ODataClient

abbrev Entry := Table Value

structure BatchEntry where
  contentId : UInt32
  payload : Option Entry
  deriving DecidableEq

structure BatchEntries where
  entries : Table BatchEntry
  lastId : UInt32

namespace BatchEntries

def empty : BatchEntries := ⟨.empty, 0⟩

def get? (b : BatchEntries) (key : String) : Option BatchEntry := b.entries.get? key

def contentId? (b : BatchEntries) (key : String) : Option UInt32 := (b.get? key).map (·.contentId)

def size (b : BatchEntries) : Nat := b.entries.entries.length

def register (b : BatchEntries) (key : String) : UInt32 × BatchEntries :=
  match b.get? key with
  | some entry => (entry.contentId, b)
  | none =>
    let id := b.lastId + 1
    (id, ⟨b.entries.set key ⟨id, none⟩, id⟩)

def resolve (b : BatchEntries) (key : String) (payload : Entry) : UInt32 × BatchEntries :=
  let (id, b) := b.register key
  (id, { b with entries := b.entries.set key ⟨id, some payload⟩ })

def ofKeys (keys : List String) : BatchEntries := keys.foldl (fun b k => (b.register k).2) empty

end BatchEntries

end ODataClient
