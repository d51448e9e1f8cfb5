import Mathlib.Data.Finset.Card
import Xv6.Log.Bcache

/-! Blocks and inodes, `fs.c`, over the contents that `bread` shows of each
block. The free map, the inode blocks and the other blocks lie apart on the disk
and are kept apart here. A result `none` is a panic. -/
namespace Xv6.Fs
open Function (update update_self update_of_ne)

abbrev bsize : Nat := 512
abbrev ndirect : Nat := 12
abbrev nindirect : Nat := bsize / 4
abbrev maxfile : Nat := ndirect + nindirect
abbrev uintSize : Nat := 0x100000000

abbrev ipb : Nat := bsize / 64
abbrev bpb : Nat := bsize * 8

structure Superblock where
  size : Nat
  nblocks : Nat
  ninodes : Nat
  nlog : Nat
  inodestart : Nat
  bmapstart : Nat

/-- The type 0 of a free inode, `T_DIR`, `T_FILE` and `T_DEV`. -/
inductive FileType where
  | free
  | dir
  | file
  | dev
deriving DecidableEq, Repr

structure Dinode where
  type : FileType
  major : Nat
  minor : Nat
  nlink : Int
  size : Nat
  addrs : Nat → Nat

abbrev Block := Nat → UInt8

def zeroBlock : Block := fun _ => 0

def word (block : Block) (i : Nat) : Nat :=
  (block (4 * i)).toNat + 256 * (block (4 * i + 1)).toNat + 65536 * (block (4 * i + 2)).toNat +
    16777216 * (block (4 * i + 3)).toNat

def setWord (block : Block) (i value : Nat) : Block := fun off =>
  if off = 4 * i then UInt8.ofNat value
  else if off = 4 * i + 1 then UInt8.ofNat (value / 256)
  else if off = 4 * i + 2 then UInt8.ofNat (value / 65536)
  else if off = 4 * i + 3 then UInt8.ofNat (value / 16777216)
  else block off

def fill (block : Block) (start : Nat) (src : List UInt8) : Block := fun off =>
  if start ≤ off then (src[off - start]?).getD (block off) else block off

/-- An entry of the inode cache: the references, `I_VALID` and the copy. -/
structure Inode where
  ref : Nat
  valid : Bool
  data : Dinode

abbrev ninode : Nat := 50

/-- The inode cache by inode number, with the numbers of the entries in use, of which
there are `NINODE`. -/
structure Icache where
  entry : Nat → Inode
  live : Finset Nat
  mem_live : ∀ ip, ip ∈ live ↔ 0 < (entry ip).ref

instance : CoeFun Icache fun _ => Nat → Inode :=
  ⟨Icache.entry⟩

def Icache.set (cache : Icache) (ip : Nat) (inode : Inode) : Icache where
  entry := update cache.entry ip inode
  live := if 0 < inode.ref then insert ip cache.live else cache.live.erase ip
  mem_live := by
    intro x
    by_cases hx : x = ip
    · subst hx
      rw [update_self]
      split
      · rename_i hpos
        exact ⟨fun _ => hpos, fun _ => Finset.mem_insert_self ..⟩
      · rename_i hpos
        exact ⟨fun h => absurd rfl (Finset.ne_of_mem_erase h), fun h => absurd h hpos⟩
    · rw [update_of_ne hx, ← cache.mem_live]
      split
      · rw [Finset.mem_insert, or_iff_right hx]
      · rw [Finset.mem_erase, and_iff_right hx]

/-- `lh` are the blocks that the running transaction has logged, and `outstanding` is
the number of calls in it. -/
structure State where
  bitmap : Nat → Bool
  dinode : Nat → Dinode
  block : Nat → Block
  icache : Icache
  lh : Finset Nat
  outstanding : Nat

def State.setInode (s : State) (ip : Nat) (inode : Inode) : State :=
  { s with icache := s.icache.set ip inode }

def State.setData (s : State) (ip : Nat) (data : Dinode) : State :=
  s.setInode ip { s.icache ip with data := data }

def State.addr (s : State) (ip i : Nat) : Nat :=
  (s.icache ip).data.addrs i

def State.setAddr (s : State) (ip i b : Nat) : State :=
  s.setData ip { (s.icache ip).data with addrs := update (s.icache ip).data.addrs i b }

def State.setBlock (s : State) (b : Nat) (data : Block) : State :=
  { s with block := update s.block b data }

def State.logged (s : State) (b : Nat) : State :=
  { s with lh := insert b s.lh }

/-- `begin_op`; without a result it waits. -/
def beginOp (s : State) : Option State :=
  if Log.logsize < s.lh.card + (s.outstanding + 1) * Log.maxopblocks then none
  else some { s with outstanding := s.outstanding + 1 }

/-- `end_op`, with `commit` at the end of the last call. -/
def endOp (s : State) : State :=
  if s.outstanding = 1 then { s with outstanding := 0, lh := ∅ }
  else { s with outstanding := s.outstanding - 1 }

section

variable (sb : Superblock)

/-- A block that is in the log already takes no second entry, but `log_write` tests the
number of entries first. -/
def logWrite (s : State) (b : Nat) : Option State :=
  if Log.logsize ≤ s.lh.card ∨ sb.nlog - 1 ≤ s.lh.card then none
  else if s.outstanding < 1 then none
  else some (s.logged b)

def bblock (b : Nat) : Nat :=
  b / bpb + sb.bmapstart

def iblock (i : Nat) : Nat :=
  i / ipb + sb.inodestart

def bzero (s : State) (b : Nat) : Option State :=
  logWrite sb (s.setBlock b zeroBlock) b

/-- The first free block, marked and zeroed. -/
def balloc (s : State) : Option (Nat × State) :=
  ((List.range sb.size).find? fun b => !s.bitmap b).bind fun b =>
    (logWrite sb { s with bitmap := update s.bitmap b true } (bblock sb b)).bind fun s =>
      (bzero sb s b).map fun s => (b, s)

def bfree (s : State) (b : Nat) : Option State :=
  if s.bitmap b then logWrite sb { s with bitmap := update s.bitmap b false } (bblock sb b)
  else none

def iupdate (s : State) (ip : Nat) : Option State :=
  logWrite sb { s with dinode := update s.dinode ip (s.icache ip).data } (iblock sb ip)

/-- `ip->addrs[i]`, allocated if it is 0. -/
def loadAddr (s : State) (ip i : Nat) : Option (Nat × State) :=
  if s.addr ip i = 0 then (balloc sb s).map fun result => (result.1, result.2.setAddr ip i result.1)
  else some (s.addr ip i, s)

/-- Entry `i` of the indirect block `ind`, allocated if it is 0. -/
def loadEntry (s : State) (ind i : Nat) : Option (Nat × State) :=
  if word (s.block ind) i = 0 then
    (balloc sb s).bind fun result =>
      (logWrite sb (result.2.setBlock ind (setWord (result.2.block ind) i result.1)) ind).map
        fun s => (result.1, s)
  else some (word (s.block ind) i, s)

def bmap (s : State) (ip bn : Nat) : Option (Nat × State) :=
  if bn < ndirect then loadAddr sb s ip bn
  else if bn - ndirect < nindirect then
    (loadAddr sb s ip ndirect).bind fun result => loadEntry sb result.2 result.1 (bn - ndirect)
  else none

def freeAddrs (ip : Nat) : List Nat → State → Option State
  | [], s => some s
  | i :: rest, s =>
    if s.addr ip i = 0 then freeAddrs ip rest s
    else (bfree sb s (s.addr ip i)).bind fun s => freeAddrs ip rest (s.setAddr ip i 0)

def freeEntries (entries : Block) : List Nat → State → Option State
  | [], s => some s
  | j :: rest, s =>
    if word entries j = 0 then freeEntries entries rest s
    else (bfree sb s (word entries j)).bind fun s => freeEntries entries rest s

def freeIndirect (s : State) (ip : Nat) : Option State :=
  if s.addr ip ndirect = 0 then some s
  else
    (freeEntries sb (s.block (s.addr ip ndirect)) (List.range nindirect) s).bind fun s =>
      (bfree sb s (s.addr ip ndirect)).map fun s => s.setAddr ip ndirect 0

def itrunc (s : State) (ip : Nat) : Option State :=
  (freeAddrs sb ip (List.range ndirect) s).bind fun s =>
    (freeIndirect sb s ip).bind fun s =>
      iupdate sb (s.setData ip { (s.icache ip).data with size := 0 }) ip

/-- The loop of `readi`; the fuel is the number of bytes. -/
def readLoop (ip : Nat) : Nat → State → Nat → Nat → Option (List UInt8 × State)
  | 0, s, _, _ => some ([], s)
  | fuel + 1, s, off, n =>
    if n = 0 then some ([], s)
    else
      (bmap sb s ip (off / bsize)).bind fun result =>
        let m := min n (bsize - off % bsize)
        (readLoop ip fuel result.2 (off + m) (n - m)).map fun later =>
          ((List.range m).map (fun i => result.2.block result.1 (off % bsize + i)) ++ later.1,
            later.2)

abbrev console : Nat := 1

/-- `readi(ip, dst, off, n)` with the bytes it copies; `none` inside is -1. What a
device returns is `device`. -/
def readi (device : List UInt8) (s : State) (ip off n : Nat) :
    Option (Option (List UInt8) × State) :=
  let inode := (s.icache ip).data
  if inode.type = .dev then some (if inode.major = console then some device else none, s)
  else if inode.size < off ∨ uintSize ≤ off + n then some (none, s)
  else
    let n := if inode.size < off + n then inode.size - off else n
    (readLoop sb ip n s off n).map fun result => (some result.1, result.2)

/-- The loop of `writei`; the fuel is the number of bytes. -/
def writeLoop (ip : Nat) : Nat → State → Nat → List UInt8 → Option State
  | 0, s, _, _ => some s
  | fuel + 1, s, off, src =>
    if src = [] then some s
    else
      (bmap sb s ip (off / bsize)).bind fun result =>
        let m := min src.length (bsize - off % bsize)
        let data := fill (result.2.block result.1) (off % bsize) (src.take m)
        (logWrite sb (result.2.setBlock result.1 data) result.1).bind fun s =>
          writeLoop ip fuel s (off + m) (src.drop m)

/-- `writei(ip, src, off, n)`; `none` inside is -1. -/
def writei (s : State) (ip : Nat) (src : List UInt8) (off : Nat) : Option (Option Nat × State) :=
  let inode := (s.icache ip).data
  if inode.type = .dev then some (if inode.major = console then some src.length else none, s)
  else if inode.size < off ∨ uintSize ≤ off + src.length then some (none, s)
  else if maxfile * bsize < off + src.length then some (none, s)
  else
    (writeLoop sb ip src.length s off src).bind fun s =>
      if src ≠ [] ∧ (s.icache ip).data.size < off + src.length then
        (iupdate sb (s.setData ip { (s.icache ip).data with size := off + src.length }) ip).map
          fun s => (some src.length, s)
      else some (some src.length, s)

def iget (s : State) (ip : Nat) : Option State :=
  if 0 < (s.icache ip).ref then
    some (s.setInode ip { s.icache ip with ref := (s.icache ip).ref + 1 })
  else if ninode ≤ s.icache.live.card then none
  else some (s.setInode ip { s.icache ip with ref := 1, valid := false })

def idup (s : State) (ip : Nat) : State :=
  s.setInode ip { s.icache ip with ref := (s.icache ip).ref + 1 }

def ilock (s : State) (ip : Nat) : Option State :=
  if (s.icache ip).ref < 1 then none
  else if (s.icache ip).valid then some s
  else if (s.dinode ip).type = .free then none
  else some (s.setInode ip { s.icache ip with valid := true, data := s.dinode ip })

def iput (s : State) (ip : Nat) : Option State :=
  let drop (s : State) : State := s.setInode ip { s.icache ip with ref := (s.icache ip).ref - 1 }
  if (s.icache ip).ref = 1 ∧ (s.icache ip).valid ∧ (s.icache ip).data.nlink = 0 then
    (itrunc sb s ip).bind fun s =>
      (iupdate sb (s.setData ip { (s.icache ip).data with type := .free }) ip).map fun s =>
        drop (s.setInode ip { s.icache ip with valid := false })
  else some (drop s)

end

end Xv6.Fs
