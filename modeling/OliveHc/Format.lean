/-
Dumps of devices (`format.c`).

A dump is written over the front of its device: a superblock, the listen
port of every server index, and a record for each item that is worth it.
A file is an image, a byte for every position. The padding of the
structures is whatever was on the stack.
-/
import OliveHc.Lib.Bytes
import OliveHc.Server

namespace OliveHc

def ohcFmMagic : Nat := 0x2143484556494c4f
def ohcFmVersion : Int := 1
def ohcFmChsFeed : UInt64 := 0x57eb0b4eecfeb465

/-- `sizeof(ohc_superblock_t)`. -/
def superblockSize : Nat := 32
def serverPortsSize : Nat := 2 * iptArraySize
def ohcFmInfoSize : Nat := superblockSize + serverPortsSize
/-- `sizeof(ohc_format_item_t)`. -/
def formatItemSize : Nat := 40

def formatChecksum (buf : List UInt8) : UInt64 := xorAll (wordsOf buf)

/-- `ohc_format_item_t`. -/
structure FormatItem where
  hashId : HashId
  offset : Int
  length : Nat
  expire : Int
  headersLen : Nat
  serverIndex : Int
deriving DecidableEq

/-- The record in 40 bytes. -/
def FormatItem.ofBytes (b : List UInt8) : FormatItem where
  hashId := (UInt64.ofNat (leNat (b.take 8)), UInt64.ofNat (leNat ((b.drop 8).take 8)))
  offset := leInt ((b.drop 16).take 8)
  length := leNat ((b.drop 24).take 4)
  expire := leInt ((b.drop 28).take 4)
  headersLen := leNat ((b.drop 32).take 2)
  serverIndex := leInt ((b.drop 34).take 2)

def FormatItem.bytes (pad : List UInt8) (x : FormatItem) : List UInt8 :=
  leBytes 8 x.hashId.1.toNat ++ leBytes 8 x.hashId.2.toNat ++ leBytes 8 (x.offset % (256 ^ 8 : Nat)).toNat ++
    leBytes 4 x.length ++ leBytes 4 (x.expire % (256 ^ 4 : Nat)).toNat ++ leBytes 2 x.headersLen ++
    leBytes 2 (x.serverIndex % (256 ^ 2 : Nat)).toNat ++ pad

/-- What is read back of a record: every field at its width. -/
theorem FormatItem.ofBytes_bytes (x : FormatItem) (pad : List UInt8) : FormatItem.ofBytes (x.bytes pad) = {
    hashId := x.hashId
    offset := x.offset.bmod (256 ^ 8)
    length := x.length % 256 ^ 4
    expire := x.expire.bmod (256 ^ 4)
    headersLen := x.headersLen % 256 ^ 2
    serverIndex := x.serverIndex.bmod (256 ^ 2) } := by
  have hid : ∀ u : UInt64, UInt64.ofNat (u.toNat % 256 ^ 8) = u := by
    intro u
    rw [show 256 ^ 8 = 2 ^ 64 from rfl, Nat.mod_eq_of_lt u.toNat_lt, UInt64.ofNat_toNat]
  simp (disch := decide) only [FormatItem.ofBytes, FormatItem.bytes, List.append_assoc, drop_leBytes_append,
    Nat.reduceSub, List.drop_zero, take_leBytes_append, leInt_leBytes, leNat_leBytes, hid]

/-- `ohc_superblock_t`, with its padding. -/
def superblock (pad : List UInt8) (checksum : UInt64) (itemNr : Nat) : List UInt8 :=
  leBytes 8 ohcFmMagic ++ (leBytes 4 1 ++ pad) ++ leBytes 8 checksum.toNat ++ leBytes 8 itemNr

/-- The listen ports as they are on the disk. -/
def portBytes (ports : Nat → Nat) : List UInt8 := (List.range iptArraySize).flatMap fun i => leBytes 2 (ports i)

/-- What the calls of `format_load_device` on the file return: `fopen`, the
first `fread`, the `fread` of a record, and the last `fseek` and `fwrite`. -/
structure FormatIo where
  opens : Bool
  info : Bool
  record : Nat → Bool
  clear : Bool

namespace Master

/-- `server_dump_ports`. A write outside of the array is not modelled. -/
def serverDumpPorts (m : Master) : Nat → Nat :=
  m.servers.foldl (fun ports s =>
    if 0 ≤ (m.server s).index then Function.update ports (m.server s).index.toNat (m.server s).conf.listenPort else ports)
    fun _ => 0

/-- Whether `format_store_device` writes an item. -/
def dumps (a : Nat) (m : Master) : Option Bool := do
  let valid ← m.serverItemValid a
  let s ← m.serverOfItem a
  some (valid && (m.server s).conf.serverDump)

/-- The items of an order list that are dumped. -/
def dumpItems (m : Master) : List Node → Option (List Nat)
  | [] => some []
  | .fblock _ :: l => dumpItems m l
  | .item a :: l => do
    let dump ← m.dumps a
    let rest ← dumpItems m l
    some (if dump then a :: rest else rest)

/-- The record of an item. -/
def formatItem (a : Nat) (m : Master) : Option FormatItem := do
  let item := m.space.item a
  let s ← m.serverOfItem a
  some {
    hashId := item.id
    offset := item.offset
    length := item.length
    expire := item.expire
    headersLen := item.headersLen
    serverIndex := (m.server s).index }

/-- `format_store_device` without I/O errors: whether it returns `OHC_OK`,
and the image of the device. -/
def formatStoreDevice (ports : Nat → Nat) (pad : List UInt8) (itemPad : Nat → List UInt8) (d : Nat) (m : Master)
    (image : Nat → UInt8) : Option (Bool × (Nat → UInt8)) := do
  let image := imageWrite superblockSize (portBytes ports) image
  let items ← m.dumpItems (m.space.order d)
  let records ← items.mapM fun a => m.formatItem a
  let image := imageWrite ohcFmInfoSize ((records.zipIdx.map fun x => x.1.bytes (itemPad x.2)).flatten) image
  if records.length = 0 then some (false, image)
  else
    let checksum := formatChecksum (superblock pad 0 records.length) ^^^ formatChecksum (portBytes ports) ^^^ ohcFmChsFeed
    some (true, imageWrite 0 (superblock pad checksum records.length) image)

/-- `server_load_fm_item`. -/
def serverLoadFmItem (rt : Runtime) (s d : Nat) (x : FormatItem) (m : Master) : Option Master :=
  match rt.al.get m.calls m.space.items with
  | none => some { m with calls := m.calls + 1 }
  | some a => do
    let m := { m with calls := m.calls + 1 }
    let m := m.setItem a { m.space.item a with
      putting := false
      badblock := false
      deleted := false
      used := 0
      clear := 0
      serverIndex := (m.server s).index
      length := x.length
      expire := x.expire
      headersLen := x.headersLen
      offset := (x.offset % (2 ^ 40 : Nat)).toNat
      deviceIndex := (m.space.device d).index }
    let (bsize, space) ← m.space.deviceCutFreeBlock rt.al a
    let m := { m with space }
    if bsize = 0 then some { m with space := m.space.itemFree a }
    else
      let m := m.setItem a { m.space.item a with id := x.hashId }
      let m := (m.link rt s ⟨x.hashId, .item a⟩).lruAdd a (m.serverLruHead s)
      let y := m.server s
      some { m.setServer s { y with
          consumed := y.consumed + bsize
          content := y.content + x.length
          itemNr := y.itemNr + 1 } with
        number := Function.update m.number a m.log.length
        log := .loaded m.log.length s d x.hashId :: m.log }

/-- The loop of `format_load_device` from the `i`-th record on, and whether
all were read. The servers of the indices are looked up by their ports; an
index without a port is an uninitialised pointer. -/
def loadItems (rt : Runtime) (io : FormatIo) (d : Nat) (image : Nat → UInt8) (override : Int) (ports : Nat → Nat) :
    Nat → Nat → Master → Option (Bool × Master)
  | 0, _, m => some (true, m)
  | n + 1, i, m =>
    if !io.record i then some (false, m)
    else
      let x := FormatItem.ofBytes (imageRead image (ohcFmInfoSize + i * formatItemSize) formatItemSize)
      if x.offset < override ∨ x.expire ≤ m.now then loadItems rt io d image override ports n (i + 1) m
      else if x.serverIndex < 0 ∨ x.serverIndex ≥ iptArraySize ∨ ports x.serverIndex.toNat = 0 then none
      else match m.serverByPort (ports x.serverIndex.toNat) with
        | none => loadItems rt io d image override ports n (i + 1) m
        | some s => do
          let m ← m.serverLoadFmItem rt s d x
          loadItems rt io d image override ports n (i + 1) m

/-- `format_load_device`: whether it returns `OHC_OK`, the image of the
device and the state after it. -/
def formatLoadDevice (rt : Runtime) (io : FormatIo) (d : Nat) (image : Nat → UInt8) (m : Master) :
    Option (Bool × (Nat → UInt8) × Master) :=
  if !io.opens || !io.info then some (false, image, m)
  else
    let buffer := imageRead image 0 ohcFmInfoSize
    if leNat (buffer.take 8) ≠ ohcFmMagic ∨ leInt ((buffer.drop 8).take 4) ≠ ohcFmVersion then some (false, image, m)
    else if formatChecksum buffer ≠ ohcFmChsFeed then some (false, image, m)
    else do
      let itemNr := leInt ((buffer.drop 24).take 8)
      let override := toI64 (ohcFmInfoSize + itemNr * formatItemSize)
      let ports := fun i => leNat ((buffer.drop (superblockSize + 2 * i)).take 2)
      let (all, m) ← m.loadItems rt io d image override ports itemNr.toNat 0
      if !all then some (false, image, m)
      else do
        let space ← m.space.deviceLoadPost d
        let m := { m with space }
        if io.clear then some (true, imageWrite 0 (lit "FeiLiWuShi") image, m) else some (false, image, m)

end Master

end OliveHc
