import Grim.Lib.LittleEndian

/-!
# The spill manager

A block id has up to six copies, in host RAM or in a scratch file, each raw, compressed or
packed; the maps are functions to `Option`.  An `f32` is its bit pattern.  The scratch directory
is a map from file to content, and `io` is the outcome of the write (with the rename behind it)
of a call that writes a file.
-/

namespace Grim.KvTransport

open LittleEndian

inductive CacheTier
  | gpu
  | hostRam
  | nvMe
  | nvMeWeightStream
deriving DecidableEq, Repr

/-- `kv_block_{id}.bin`, `kv_block_c_{id}.bin` and `kv_block_p_{id}.bin` in the scratch directory.
-/
inductive SpillPath
  | raw (id : ℕ)
  | compressed (id : ℕ)
  | packed (id : ℕ)
deriving DecidableEq, Repr

structure LocalSpillManager where
  blockTiers : ℕ → Option CacheTier
  hostRamCache : ℕ → Option (List UInt32 × List UInt32)
  compressedHost : ℕ → Option (List UInt8)
  packedHost : ℕ → Option (UInt16 × List UInt8)
  nvmeCache : ℕ → Option SpillPath
  nvmeCompressed : ℕ → Option SpillPath
  nvmePacked : ℕ → Option SpillPath
  blockElems : ℕ
  files : SpillPath → Option (List UInt8)

def parseF32Slice (bs : List UInt8) : List UInt32 := unwords bs

namespace LocalSpillManager

open Function (update)

def new (blockElems : ℕ) : LocalSpillManager where
  blockTiers _ := none
  hostRamCache _ := none
  compressedHost _ := none
  packedHost _ := none
  nvmeCache _ := none
  nvmeCompressed _ := none
  nvmePacked _ := none
  blockElems := blockElems
  files _ := none

variable (s : LocalSpillManager)

def readToEnd (path : SpillPath) : Except String (List UInt8) :=
  match s.files path with
  | none => .error "No such file or directory (os error 2)"
  | some bs => .ok bs

def readExact (path : SpillPath) (n : ℕ) : Except String (List UInt8) :=
  match s.readToEnd path with
  | .error e => .error e
  | .ok bs => if bs.length < n then .error "failed to fill whole buffer" else .ok (bs.take n)

def demoteToHost (b : ℕ) (k v : List UInt32) : LocalSpillManager × Except String Unit :=
  if k.length ≠ s.blockElems ∨ v.length ≠ s.blockElems then
    (s, .error
      s!"block element length mismatch: expected {s.blockElems}, got k={k.length}, v={v.length}")
  else
    ({ s with
        hostRamCache := update s.hostRamCache b (some (k, v))
        blockTiers := update s.blockTiers b (some .hostRam) }, .ok ())

def demoteToNvme (io : Except String Unit) (b : ℕ) : LocalSpillManager × Except String Unit :=
  match s.hostRamCache b with
  | none => (s, .ok ())
  | some (k, v) =>
    match io with
    | .error e => (s, .error e)
    | .ok () =>
      ({ s with
          hostRamCache := update s.hostRamCache b none
          files := update s.files (.raw b) (some (words k ++ words v))
          nvmeCache := update s.nvmeCache b (some (.raw b))
          blockTiers := update s.blockTiers b (some .nvMe) }, .ok ())

def retrieve (b : ℕ) : LocalSpillManager × Except String (Option (List UInt32 × List UInt32)) :=
  match s.blockTiers b with
  | none => (s, .ok none)
  | some .gpu => (s, .ok none)
  | some .hostRam => (s, .ok (s.hostRamCache b))
  | some .nvMe =>
    match s.nvmeCache b with
    | none => (s, .error "NVMe block path missing")
    | some path =>
      match s.readExact path (s.blockElems * 8) with
      | .error e => (s, .error e)
      | .ok bs =>
        let k := parseF32Slice (bs.take (s.blockElems * 4))
        let v := parseF32Slice (bs.drop (s.blockElems * 4))
        ({ s with
            nvmeCache := update s.nvmeCache b none
            files := update s.files path none
            hostRamCache := update s.hostRamCache b (some (k, v))
            blockTiers := update s.blockTiers b (some .hostRam) }, .ok (some (k, v)))
  | some .nvMeWeightStream => (s, .ok none)

def demoteCompressed (b : ℕ) (blob : List UInt8) : LocalSpillManager × Except String Unit :=
  if blob.isEmpty then (s, .error "demote_compressed: empty blob")
  else
    ({ s with
        hostRamCache := update s.hostRamCache b none
        nvmeCache := update s.nvmeCache b none
        compressedHost := update s.compressedHost b (some blob)
        blockTiers := update s.blockTiers b (some .hostRam) }, .ok ())

def demoteCompressedToNvme (io : Except String Unit) (b : ℕ) :
    LocalSpillManager × Except String Unit :=
  match s.compressedHost b with
  | none => (s, .ok ())
  | some blob =>
    match io with
    | .error e => (s, .error e)
    | .ok () =>
      ({ s with
          compressedHost := update s.compressedHost b none
          files := update s.files (.compressed b) (some blob)
          nvmeCompressed := update s.nvmeCompressed b (some (.compressed b))
          blockTiers := update s.blockTiers b (some .nvMe) }, .ok ())

def retrieveCompressed (b : ℕ) : LocalSpillManager × Except String (Option (List UInt8)) :=
  match s.compressedHost b with
  | some blob => (s, .ok (some blob))
  | none =>
    match s.nvmeCompressed b with
    | none => (s, .ok none)
    | some path =>
      match s.readToEnd path with
      | .error e => (s, .error e)
      | .ok bs =>
        if bs.isEmpty then (s, .error "compressed spill file empty")
        else
          ({ s with
              nvmeCompressed := update s.nvmeCompressed b none
              files := update s.files path none
              compressedHost := update s.compressedHost b (some bs)
              blockTiers := update s.blockTiers b (some .hostRam) }, .ok (some bs))

def demotePacked (b : ℕ) (format : UInt16) (bs : List UInt8) :
    LocalSpillManager × Except String Unit :=
  if bs.isEmpty then (s, .error "demote_packed: empty bytes")
  else
    ({ s with
        hostRamCache := update s.hostRamCache b none
        compressedHost := update s.compressedHost b none
        nvmeCache := update s.nvmeCache b none
        nvmeCompressed := update s.nvmeCompressed b none
        packedHost := update s.packedHost b (some (format, bs))
        blockTiers := update s.blockTiers b (some .hostRam) }, .ok ())

def packedMagic : ℕ := 0x4B50

def demotePackedToNvme (io : Except String Unit) (b : ℕ) :
    LocalSpillManager × Except String Unit :=
  match s.packedHost b with
  | none => (s, .ok ())
  | some (format, bs) =>
    match io with
    | .error e => (s, .error e)
    | .ok () =>
      ({ s with
          packedHost := update s.packedHost b none
          files := update s.files (.packed b)
            (some (bytes 2 packedMagic ++ bytes 2 format.toNat ++ bs))
          nvmePacked := update s.nvmePacked b (some (.packed b))
          blockTiers := update s.blockTiers b (some .nvMe) }, .ok ())

def hexDigit (n : ℕ) : Char := if n < 10 then Char.ofNat (48 + n) else Char.ofNat (87 + n)

/-- `{:04x}` of a 16-bit number. -/
def hex4 (n : ℕ) : String :=
  String.ofList [hexDigit (n / 4096 % 16), hexDigit (n / 256 % 16), hexDigit (n / 16 % 16),
    hexDigit (n % 16)]

def retrievePacked (b : ℕ) : LocalSpillManager × Except String (Option (UInt16 × List UInt8)) :=
  match s.packedHost b with
  | some entry => (s, .ok (some entry))
  | none =>
    match s.nvmePacked b with
    | none => (s, .ok none)
    | some path =>
      match s.readToEnd path with
      | .error e => (s, .error e)
      | .ok data =>
        if data.length < 4 then (s, .error "packed spill file missing header")
        else if value (data.take 2) ≠ packedMagic then
          (s, .error ("packed spill magic mismatch: 0x" ++ hex4 (value (data.take 2))))
        else
          let entry := (UInt16.ofNat (value ((data.drop 2).take 2)), data.drop 4)
          ({ s with
              nvmePacked := update s.nvmePacked b none
              files := update s.files path none
              packedHost := update s.packedHost b (some entry)
              blockTiers := update s.blockTiers b (some .hostRam) }, .ok (some entry))

/-- `remove_file` of the path, where there is one. -/
def unlink (files : SpillPath → Option (List UInt8)) :
    Option SpillPath → SpillPath → Option (List UInt8)
  | none => files
  | some path => update files path none

def evict (b : ℕ) : LocalSpillManager :=
  { s with
    blockTiers := update s.blockTiers b none
    hostRamCache := update s.hostRamCache b none
    compressedHost := update s.compressedHost b none
    packedHost := update s.packedHost b none
    nvmeCache := update s.nvmeCache b none
    nvmeCompressed := update s.nvmeCompressed b none
    nvmePacked := update s.nvmePacked b none
    files := unlink (unlink (unlink s.files (s.nvmeCache b)) (s.nvmeCompressed b))
      (s.nvmePacked b) }

def getTier (b : ℕ) : Option CacheTier := s.blockTiers b

/-- What a promotion reads: a compressed blob if there is one, else the raw copy. -/
inductive Promotion
  | compressed (blob : List UInt8)
  | raw (k v : List UInt32)
deriving DecidableEq, Repr

/-- The reads of `KvBlockPool::promote_to_gpu`, in its order. -/
def promote (b : ℕ) : LocalSpillManager × Except String (Option Promotion) :=
  match s.retrieveCompressed b with
  | (s', .error e) => (s', .error e)
  | (s', .ok (some blob)) => (s', .ok (some (.compressed blob)))
  | (s', .ok none) =>
    match s'.retrieve b with
    | (s'', .error e) => (s'', .error e)
    | (s'', .ok none) => (s'', .ok none)
    | (s'', .ok (some (k, v))) => (s'', .ok (some (.raw k v)))

end LocalSpillManager

end Grim.KvTransport
