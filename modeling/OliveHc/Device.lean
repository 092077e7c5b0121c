/-
Devices and their free blocks (`device.c`).

Objects live at addresses: `device`, `fblock` and `item` are what is stored
there. A device's order list links its items and free blocks by offset; the
queues of `free_blocks` link the free blocks of all devices by size class.
A result `none` is the end of the process, at the `exit(1)` of
`device_get_free_block` or at a pointer that leads nowhere. `retired` is
kept for the proofs only: the blocks that were given up as bad.
-/
import OliveHc.Lib.LinkedList
import OliveHc.Utils.Hash
import OliveHc.Utils.IdxPointer
import OliveHc.Utils.IpBucket

namespace OliveHc

def loopLimit : Nat := 1000

/-- A node of an order list. -/
inductive Node
  | item (a : Nat)
  | fblock (f : Nat)
deriving DecidableEq, Repr

/-- `ohc_free_block_t`. -/
structure FreeBlock where
  deviceIndex : Int
  offset : Nat
  blockSize : Nat
deriving DecidableEq, Repr

/-- `ohc_item_t`, without its links. -/
structure Item where
  id : HashId
  length : Nat
  expire : Int
  offset : Nat
  putting : Bool
  deleted : Bool
  badblock : Bool
  serverIndex : Int
  deviceIndex : Int
  headersLen : Nat
  used : Nat
  clear : Nat
deriving DecidableEq

/-- `ohc_device_t`. A file is what `dev` and `inode` say it is; `fdOpen` says
that `fd` is not -1. -/
structure Device where
  deleted : Bool
  kicked : Bool
  fdOpen : Bool
  index : Int
  used : Int
  file : Nat
  capacity : Nat
  consumed : Nat
  badblock : Nat
deriving DecidableEq, Repr

/-- The state of `device.c`, with the items it places. `fblocks` are the
free blocks that are allocated and `items` the items that have a block. -/
structure Space where
  device : Nat → Device
  order : Nat → List Node
  devices : List Nat
  deletedDevices : List Nat
  deviceIndexs : IdxPointer
  fblock : Nat → FreeBlock
  fblocks : List Nat
  queue : Nat → List Nat
  item : Nat → Item
  items : List Nat
  badblockPercent : Int
  retired : Nat → List (Nat × Nat)
  ticks : Nat

/-- Before the first device. -/
def Space.empty (badblockPercent : Int) : Space where
  device _ := ⟨false, false, false, 0, 0, 0, 0, 0, 0⟩
  order _ := []
  devices := []
  deletedDevices := []
  deviceIndexs := .init
  fblock _ := ⟨0, 0, 0⟩
  fblocks := []
  queue _ := []
  item _ := ⟨(0, 0), 0, 0, 0, false, false, false, 0, 0, 0, 0, 0⟩
  items := []
  badblockPercent
  retired _ := []
  ticks := 0

namespace Space

def deviceOfFblock (f : Nat) (s : Space) : Option Nat := s.deviceIndexs.get (s.fblock f).deviceIndex

def deviceOfItem (a : Nat) (s : Space) : Option Nat := s.deviceIndexs.get (s.item a).deviceIndex

def setDevice (d : Nat) (x : Device) (s : Space) : Space := { s with device := Function.update s.device d x }

def setFblock (f : Nat) (x : FreeBlock) (s : Space) : Space := { s with fblock := Function.update s.fblock f x }

def setItem (a : Nat) (x : Item) (s : Space) : Space := { s with item := Function.update s.item a x }

def setOrder (d : Nat) (l : List Node) (s : Space) : Space := { s with order := Function.update s.order d l }

/-! ## The queues -/

def ipbucketAdd (f : Nat) (s : Space) : Space :=
  let size := (s.fblock f).blockSize
  let i := (ipbucketIndex size false).toNat
  { s with queue := Function.update s.queue i (if size = ipbucketBlockSize size then f :: s.queue i else s.queue i ++ [f]) }

/-- Unlinks a free block from whichever queue it is in. -/
def ipbucketDel (f : Nat) (s : Space) : Space := { s with queue := fun i => (s.queue i).erase f }

def ipbucketUpdate (f : Nat) (s : Space) : Space := (s.ipbucketDel f).ipbucketAdd f

def ipbucketGet (size : Nat) (s : Space) : Option (Nat × Space) :=
  let index := ipbucketIndex size true
  if index = -1 then none
  else ((List.range' index.toNat (ipbBuckets - index.toNat)).findSome? fun i => (s.queue i).head?).map fun f =>
    (f, s.ipbucketDel f)

def ipbucketBiggest (s : Space) : Option Nat :=
  (List.range ipbBuckets).reverse.findSome? fun i => (s.queue i).getLast?

/-! ## Free blocks and devices -/

variable (al : Allocator)

/-- `device_fblock_insert`, before `base` or at the end of the order list,
and whether there was memory for it. -/
def deviceFblockInsert (d : Nat) (base : Option Node) (offset size : Nat) (s : Space) : Bool × Space :=
  match al.get s.ticks s.fblocks with
  | none => (false, { s with ticks := s.ticks + 1 })
  | some f =>
    let s := { s with
      fblock := Function.update s.fblock f ⟨(s.device d).index, offset % 2 ^ 40, size⟩
      order := Function.update s.order d (match base with
        | none => s.order d ++ [Node.fblock f]
        | some n => listAddTail (Node.fblock f) n (s.order d))
      fblocks := f :: s.fblocks
      ticks := s.ticks + 1 }
    (true, s.ipbucketAdd f)

def deviceFblockDelete (f : Nat) (s : Space) : Option Space :=
  (s.deviceOfFblock f).map fun d =>
    { (s.ipbucketDel f).setOrder d ((s.order d).erase (.fblock f)) with fblocks := s.fblocks.filter (· ≠ f) }

/-- `device_add` of a new object `d` whose file has been opened. -/
def deviceAdd (d file capacity : Nat) (s : Space) : Option Space := do
  let (index, deviceIndexs) ← s.deviceIndexs.add d
  let s := { s with
    devices := s.devices ++ [d]
    deviceIndexs
    device := Function.update s.device d
      { deleted := false, kicked := false, fdOpen := true, index, used := 0, file, capacity, consumed := 0, badblock := 0 }
    order := Function.update s.order d []
    retired := Function.update s.retired d [] }
  if capacity ≠ 0 then
    let x := s.deviceFblockInsert al d none 0 capacity
    some (if x.1 then x.2 else x.2.setDevice d { x.2.device d with kicked := true })
  else some s

def deviceDelete (d : Nat) (s : Space) : Space :=
  let s := { s with devices := s.devices.erase d }
  if (s.device d).kicked then s
  else { s.setDevice d { s.device d with deleted := true } with deletedDevices := d :: s.deletedDevices }

/-- `device_kick`: a copy without a list stays in `devices`. -/
def deviceKick (d : Nat) (s : Space) : Space :=
  match al.get s.ticks (s.devices ++ s.deletedDevices) with
  | none => { s with ticks := s.ticks + 1 }
  | some c =>
    deviceDelete d { s with
      device := Function.update s.device c { s.device d with kicked := true }
      order := Function.update s.order c []
      devices := listAdd c d s.devices
      ticks := s.ticks + 1 }

/-! ## Blocks of items -/

/-- Item `a` gets its place on device `d`, behind the free block `f`. -/
def linkItem (a f d offset : Nat) (s : Space) : Space :=
  { s with
    item := Function.update s.item a { s.item a with offset := offset % 2 ^ 40, deviceIndex := (s.device d).index }
    items := a :: s.items
    order := Function.update s.order d (listAdd (.item a) (.fblock f) (s.order d))
    device := Function.update s.device d
      { s.device d with consumed := (s.device d).consumed + ipbucketBlockSize (s.item a).length } }

/-- The second half of `device_get_free_block`: item `a` takes its block from
the free block `f`, which is in no queue. An item that is linked already
would break the list. -/
def takeBlock (a f d : Nat) (s : Space) : Option (Nat × Space) :=
  let bsize := ipbucketBlockSize (s.item a).length
  let b := s.fblock f
  if a ∈ s.items then none
  else if b.blockSize > bsize then
    let s := s.linkItem a f d (b.offset + b.blockSize - bsize)
    some (bsize, (s.setFblock f { b with blockSize := b.blockSize - bsize }).ipbucketAdd f)
  else if b.blockSize = bsize then ((s.linkItem a f d b.offset).deviceFblockDelete f).map fun s => (bsize, s)
  else none

/-- The tries of `device_get_free_block`: free blocks of deleted devices are
dropped on the way. -/
def getFreeBlock (a : Nat) : Nat → Space → Option (Nat × Space)
  | n, s =>
    match s.ipbucketGet (s.item a).length with
    | none => some (0, s)
    | some (f, s) => do
      let d ← s.deviceOfFblock f
      if (s.device d).deleted then
        let s ← s.deviceFblockDelete f
        match n with
        | 0 => some (0, s)
        | n + 1 => getFreeBlock a n s
      else s.takeBlock a f d

def deviceGetFreeBlock (a : Nat) (s : Space) : Option (Nat × Space) := getFreeBlock a loopLimit s

/-- The free block at a node, if it begins or ends where it should. -/
def fblockAt (n : Option Node) (p : FreeBlock → Prop) [DecidablePred p] (s : Space) : Option Nat :=
  match n with
  | some (.fblock f) => if p (s.fblock f) then some f else none
  | _ => none

/-- The end of `device_return_free_block`, where the block of item `a` is
merged with its free neighbours or becomes a free block. -/
def recycle (a d : Nat) (s : Space) : Option Space :=
  let item := s.item a
  let bsize := ipbucketBlockSize item.length
  let prev := s.fblockAt (listPrev (.item a) (s.order d)) fun b => b.offset + b.blockSize = item.offset
  let next := s.fblockAt (listNext (.item a) (s.order d)) fun b => b.offset = item.offset + bsize
  match prev, next with
  | some p, some n =>
    let b := s.fblock p
    ((s.setFblock p { b with blockSize := b.blockSize + (bsize + (s.fblock n).blockSize) }).ipbucketUpdate p)
      |>.deviceFblockDelete n
  | some p, none =>
    let b := s.fblock p
    some ((s.setFblock p { b with blockSize := b.blockSize + bsize }).ipbucketUpdate p)
  | none, some n =>
    let b := s.fblock n
    some ((s.setFblock n { b with offset := b.offset - bsize, blockSize := b.blockSize + bsize }).ipbucketUpdate n)
  | none, none => some (s.deviceFblockInsert al d (some (.item a)) item.offset bsize).2

/-- `device_return_free_block`: the size of the block that item `a` had. -/
def deviceReturnFreeBlock (a : Nat) (s : Space) : Option (Nat × Space) := do
  let d ← s.deviceOfItem a
  let item := s.item a
  let bsize := ipbucketBlockSize item.length
  let device := s.device d
  let unlink := fun (s : Space) => (bsize, s.setOrder d ((s.order d).erase (.item a)))
  if device.deleted then some (unlink s)
  else if item.badblock then
    let badblock := device.badblock + bsize
    let s := { s.setDevice d { device with badblock } with
      retired := Function.update s.retired d ((item.offset, bsize) :: s.retired d) }
    let badp : Int := (badblock * 100 / device.capacity : Nat)
    some (unlink (if badp > s.badblockPercent then s.deviceKick al d else s))
  else
    let s ← s.recycle al a d
    some (unlink (s.setDevice d { s.device d with consumed := (s.device d).consumed - bsize }))

/-- The `slab_free` of an item. -/
def itemFree (a : Nat) (s : Space) : Space := { s with items := s.items.filter (· ≠ a) }

/-- The remaining space at the end of a device that is being loaded. -/
def current (d : Nat) (s : Space) : Option Nat :=
  match (s.order d).getLast? with
  | some (.fblock f) => some f
  | _ => none

/-- Item `a` is linked before the remaining space `f`, which shrinks from its
beginning. -/
def linkLoaded (a f d step bsize : Nat) (s : Space) : Space :=
  let b := s.fblock f
  { s with
    order := Function.update s.order d (listAddTail (.item a) (.fblock f) (s.order d))
    items := a :: s.items
    fblock := Function.update s.fblock f
      { b with offset := (b.offset + step) % 2 ^ 40, blockSize := b.blockSize - step }
    device := Function.update s.device d { s.device d with consumed := (s.device d).consumed + bsize } }

/-- `device_cut_free_block`: 0 for an item that does not fit. -/
def deviceCutFreeBlock (a : Nat) (s : Space) : Option (Nat × Space) := do
  let d ← s.deviceOfItem a
  let f ← s.current d
  let item := s.item a
  let b := s.fblock f
  let bsize := ipbucketBlockSize item.length
  let gap := item.offset - b.offset
  let step := bsize + gap
  if item.offset < b.offset ∨ b.blockSize < step then some (0, s)
  else if a ∈ s.items then none
  else
    let s := if gap > 0 then (s.deviceFblockInsert al d (some (.fblock f)) b.offset gap).2 else s
    some (bsize, s.linkLoaded a f d step bsize)

def deviceLoadPost (d : Nat) (s : Space) : Option Space := do
  let f ← s.current d
  if (s.fblock f).blockSize = 0 then s.deviceFblockDelete f else some (s.ipbucketUpdate f)

end Space

/-! ## What deletes items -/

/-- The program around `device.c`: its state, and `server_item_delete`. -/
structure Host (σ : Type) where
  space : σ → Space
  withSpace : Space → σ → σ
  itemDelete : Nat → σ → Option σ

namespace Host

variable {σ : Type} (h : Host σ)

/-- `device_delete_item`: a neighbour that is an item and not hot goes. -/
def deviceDeleteItem (n : Option Node) (m : σ) : Option σ :=
  match n with
  | some (.item a) =>
    let item := (h.space m).item a
    if item.putting || item.used ≠ 0 then some m else h.itemDelete a m
  | _ => some m

/-- The loop of `device_free_block_extend`, and whether it returns `OHC_OK`. -/
def extend (target : Nat) : Nat → Nat → σ → Option (Bool × σ)
  | 0, _, m => some (false, m)
  | n + 1, last, m =>
    match (h.space m).ipbucketBiggest with
    | none => some (false, m)
    | some f =>
      let size := ((h.space m).fblock f).blockSize
      if size ≥ target then some (true, m)
      else if size = last then some (false, m)
      else do
        let d ← (h.space m).deviceOfFblock f
        if ((h.space m).device d).deleted then
          let s ← (h.space m).deviceFblockDelete f
          extend target n size (h.withSpace s m)
        else
          let order := (h.space m).order d
          let m ← h.deviceDeleteItem (listPrev (.fblock f) order) m
          let m ← h.deviceDeleteItem (listNext (.fblock f) order) m
          extend target n size m

def deviceFreeBlockExtend (target : Nat) (m : σ) : Option (Bool × σ) :=
  h.extend (ipbucketBlockSize target) loopLimit 0 m

/-- The body of the loop of `device_destroy`. -/
def destroyNode (n : Node) (m : σ) : Option σ :=
  match n with
  | .fblock f => ((h.space m).deviceFblockDelete f).map (h.withSpace · m)
  | .item a => h.itemDelete a m

/-- `device_destroy`. A node that is deleted unlinks only itself, so the walk
goes over the nodes that were there. -/
def deviceDestroy (d : Nat) (m : σ) : Option σ := do
  let m ← (((h.space m).order d).take (loopLimit + 1)).foldlM (fun m n => h.destroyNode n m) m
  let s := h.space m
  let device := s.device d
  let s := if device.used = 0 ∧ device.fdOpen then s.setDevice d { device with fdOpen := false } else s
  if s.order d ≠ [] then some (h.withSpace s m)
  else do
    let deviceIndexs ← s.deviceIndexs.delete device.index
    some (h.withSpace { s with deletedDevices := s.deletedDevices.erase d, deviceIndexs } m)

def deviceRoutine (m : σ) : Option σ :=
  (h.space m).deletedDevices.foldlM (fun m d => h.deviceDestroy d m) m

end Host

end OliveHc
