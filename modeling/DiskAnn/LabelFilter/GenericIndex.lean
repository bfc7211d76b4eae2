import DiskAnn.Data.Bytes
import DiskAnn.LabelFilter.KeyCodec

/-! # The inverted index

`generic_index.rs`, `inverted_index_provider_impl.rs` and `RoaringPostingList`, over a key-value store
whose operations succeed. What a call has written before it fails stays in the store.
-/

namespace DiskAnn.LabelFilter

open Function

/-! ## Posting lists -/

/-- The serialized form of a set, as the `roaring` crate has it. -/
structure RoaringFormat where
  serialize : Finset (BitVec 32) → List UInt8
  deserialize : List UInt8 → Except String (Finset (BitVec 32))
  deserialize_serialize : ∀ rb, deserialize (serialize rb) = .ok rb

structure RoaringPostingList where
  rb : Finset (BitVec 32)
  deriving DecidableEq

namespace RoaringPostingList

def empty : RoaringPostingList := ⟨∅⟩

variable (pl : RoaringPostingList)

/-- `id as u32` -/
def contains (id : ℕ) : Bool := BitVec.ofNat 32 id ∈ pl.rb

def insert (id : ℕ) : RoaringPostingList := ⟨pl.rb ∪ {BitVec.ofNat 32 id}⟩

def remove (id : ℕ) : RoaringPostingList := ⟨pl.rb.erase (BitVec.ofNat 32 id)⟩

def isEmpty : Bool := pl.rb = ∅

def deserialize (format : RoaringFormat) (bytes : List UInt8) : Except String RoaringPostingList :=
  match format.deserialize bytes with
  | .ok rb => .ok ⟨rb⟩
  | .error e => .error ("Failed to deserialize RoaringBitmap: " ++ e)

end RoaringPostingList

/-! ## The keys of a document -/

/-- The errors, as far as they do not come from the store. -/
inductive IndexError
  | serialization (dataType source : String)
  | corruptData (location reason : String)
  | overflow (operation : String)
  deriving DecidableEq, Repr

def serializeKeyList (keys : List (List UInt8)) : Except IndexError (List UInt8) :=
  if 4 + (keys.map fun k => 4 + k.length).sum < 2 ^ 64 then
    .ok (Bytes.toLe 4 keys.length ++ keys.flatMap fun k => Bytes.toLe 4 k.length ++ k)
  else .error (.overflow "serialize_key_list")

/-- The loop over the keys that are left, from key `i` on. -/
def deserializeKeys : ℕ → ℕ → List UInt8 → Except IndexError (List (List UInt8))
  | 0, _, _ => .ok []
  | count + 1, i, bytes =>
      if bytes.length < 4 then
        .error (.corruptData "reverse_key_list" ("length header overflow at key " ++ toString i))
      else
        let len := Bytes.ofLe (bytes.take 4)
        let bytes := bytes.drop 4
        if bytes.length < len then
          .error (.corruptData "reverse_key_list" ("data overflow at key " ++ toString i ++
            " (expected " ++ toString len ++ " bytes, have " ++ toString bytes.length ++ ")"))
        else
          match deserializeKeys count (i + 1) (bytes.drop len) with
          | .ok keys => .ok (bytes.take len :: keys)
          | .error e => .error e

def deserializeKeyList (bytes : List UInt8) : Except IndexError (List (List UInt8)) :=
  if bytes.length < 4 then
    .error (.corruptData "reverse_key_list" "buffer too short for header (need 4 bytes)")
  else deserializeKeys (Bytes.ofLe (bytes.take 4)) 0 (bytes.drop 4)

/-! ## The index -/

/-- `HashMap<String, AttributeValue>`, in the order of its iteration. -/
structure Attributes where
  entries : List (String × AttributeValue)
  distinct : (entries.map (·.1)).Nodup

/-- The keys of the attributes. -/
def Attributes.keys (attributes : Attributes) : List (List UInt8) :=
  attributes.entries.map fun entry => DefaultKeyCodec.encodeFieldValueKey entry.1 entry.2

/-- What the store holds. -/
def KvStore : Type := List UInt8 → Option (List UInt8)

namespace KvStore

def new : KvStore := fun _ => none

variable (store : KvStore)

def get (key : List UInt8) : Option (List UInt8) := store key

def set (key value : List UInt8) : KvStore := update store key (some value)

def del (key : List UInt8) : KvStore := update store key none

theorem get_set (key value other : List UInt8) :
    (store.set key value).get other = if other = key then some value else store.get other :=
  update_apply ..

theorem get_del (key other : List UInt8) :
    (store.del key).get other = if other = key then none else store.get other :=
  update_apply ..

end KvStore

namespace GenericIndex

variable (format : RoaringFormat)

/-- A posting list as it is stored. -/
def deserializePostingList (bytes : List UInt8) : Except IndexError RoaringPostingList :=
  match RoaringPostingList.deserialize format bytes with
  | .ok pl => .ok pl
  | .error e => .error (.serialization "posting_list" e)

variable (store : KvStore)

def getOrEmptyPostingList (key : List UInt8) :
    Except IndexError RoaringPostingList :=
  match store.get key with
  | some bytes => deserializePostingList format bytes
  | none => .ok .empty

def getPostingList (field : String) (value : AttributeValue) :
    Except IndexError (Option RoaringPostingList) :=
  match store.get (DefaultKeyCodec.encodeFieldValueKey field value) with
  | some bytes =>
      match deserializePostingList format bytes with
      | .ok pl => .ok (some pl)
      | .error e => .error e
  | none => .ok none

/-- The loop of `insert` over the keys of the attributes. -/
def insertLoop (docId : ℕ) : List (List UInt8) → KvStore → Except IndexError Unit × KvStore
  | [], store => (.ok (), store)
  | key :: keys, store =>
      match getOrEmptyPostingList format store key with
      | .ok postingList =>
          insertLoop docId keys (store.set key (format.serialize (postingList.insert docId).rb))
      | .error e => (.error e, store)

def insert (docId : ℕ) (attributes : Attributes) :
    Except IndexError Unit × KvStore :=
  match insertLoop format docId attributes.keys store with
  | (.ok (), store) =>
      match serializeKeyList attributes.keys with
      | .ok reverseValue => (.ok (), store.set (reverseKey docId) reverseValue)
      | .error e => (.error e, store)
  | (.error e, store) => (.error e, store)

/-- The loop of `delete` over the keys of the document. -/
def deleteLoop (docId : ℕ) : List (List UInt8) → KvStore → Except IndexError Unit × KvStore
  | [], store => (.ok (), store)
  | key :: keys, store =>
      match store.get key with
      | some bytes =>
          match deserializePostingList format bytes with
          | .ok postingList =>
              let postingList := postingList.remove docId
              if postingList.isEmpty then deleteLoop docId keys (store.del key)
              else deleteLoop docId keys (store.set key (format.serialize postingList.rb))
          | .error e => (.error e, store)
      | none => deleteLoop docId keys store

def delete (docId : ℕ) : Except IndexError Unit × KvStore :=
  match store.get (reverseKey docId) with
  | none => (.ok (), store)
  | some bytes =>
      match deserializeKeyList bytes with
      | .error e => (.error e, store)
      | .ok keys =>
          match deleteLoop format docId keys store with
          | (.ok (), store) => (.ok (), store.del (reverseKey docId))
          | (.error e, store) => (.error e, store)

def update (docId : ℕ) (attributes : Attributes) :
    Except IndexError Unit × KvStore :=
  match delete format store docId with
  | (.ok (), store) => insert format store docId attributes
  | (.error e, store) => (.error e, store)

end GenericIndex

end DiskAnn.LabelFilter
