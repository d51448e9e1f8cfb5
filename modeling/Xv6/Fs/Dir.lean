import Xv6.Fs.Inode
import Xv6.Lib.Command

/-! Directories, `fs.c`, for one thread at a time. A call that panics has no
result. -/
namespace Xv6.Fs
open Command

abbrev dirsiz : Nat := 14
abbrev direntSize : Nat := 2 + dirsiz

abbrev Name := List UInt8

/-- `strncmp(s, t, n) == 0`; a string ends with its list. -/
def strncmp : Nat → Name → Name → Bool
  | 0, _, _ => true
  | n + 1, s, t =>
    if s.headD 0 ≠ t.headD 0 then false
    else if s.headD 0 = 0 then true
    else strncmp n s.tail t.tail

/-- The `n` bytes that `strncpy` stores, zeroes after the end of the string. -/
def strncpy : Nat → Name → List UInt8
  | 0, _ => []
  | n + 1, t =>
    if t.headD 0 = 0 then List.replicate (n + 1) 0 else t.headD 0 :: strncpy n t.tail

def namecmp (s t : Name) : Bool :=
  strncmp dirsiz s t

structure Dirent where
  inum : Nat
  name : Name

def Dirent.ofBytes (bytes : List UInt8) : Dirent :=
  ⟨(bytes[0]?.getD 0).toNat + 256 * (bytes[1]?.getD 0).toNat, bytes.drop 2⟩

/-- The bytes of an entry with the number, a `ushort`, and the name stored in it. -/
def Dirent.toBytes (de : Dirent) : List UInt8 :=
  [UInt8.ofNat de.inum, UInt8.ofNat (de.inum / 256)] ++ strncpy dirsiz de.name

section

variable (sb : Superblock)

def getInode (ip : Nat) : Prog State Unit :=
  update fun s => iget s ip

def inodeOf (ip : Nat) : Prog State Dinode :=
  read fun s => (s.icache ip).data

/-- `readi(dp, &de, off, sizeof(de))`; a short read is a panic. -/
def readEntry (dp off : Nat) : Prog State Dirent := do
  let result ← ⟨fun s => readi sb [] s dp off direntSize⟩
  match result with
  | some bytes => if bytes.length = direntSize then return Dirent.ofBytes bytes else fail
  | none => fail

/-- The loop over the entries of a directory from `off` on: the first entry that
passes the test, with its offset. The fuel is the number of entries left. -/
def scanEntries (dp : Nat) (test : Dirent → Bool) :
    Nat → Nat → Prog State (Option (Dirent × Nat))
  | 0, _ => return none
  | fuel + 1, off => do
    let inode ← inodeOf dp
    if off < inode.size then
      let de ← readEntry sb dp off
      if test de then return some (de, off)
      else scanEntries dp test fuel (off + direntSize)
    else return none

def findEntry (dp : Nat) (test : Dirent → Bool) (off : Nat) :
    Prog State (Option (Dirent × Nat)) := do
  let inode ← inodeOf dp
  scanEntries sb dp test (inode.size + 1) off

/-- The inode with a reference, and the offset of the entry. -/
def dirlookup (dp : Nat) (name : Name) : Prog State (Option (Nat × Nat)) := do
  let inode ← inodeOf dp
  if inode.type ≠ .dir then fail
  else
    let found ← findEntry sb dp (fun de => de.inum ≠ 0 && namecmp name de.name) 0
    match found with
    | none => return none
    | some (de, off) => do
      getInode de.inum
      return some (de.inum, off)

def dot : Name := [46]
def dotdot : Name := [46, 46]

end

end Xv6.Fs
