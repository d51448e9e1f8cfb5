import Xv6.Vm.UserSpace

/-! The memory side of `exec.c`: loading the segments of an image into a new
address space and pushing the arguments. The file is given by what `readi`
returns for it. -/
namespace Xv6.Vm

abbrev maxarg : Nat := 32

def wordSize : Nat := 0x100000000

/-- A program header, with the file's bytes from `ph.off` on and their number. -/
structure Phdr where
  load : Bool
  vaddr : Nat
  memsz : Nat
  filesz : Nat
  data : Nat → UInt8
  avail : Nat

/-- `valid` says that the path resolves and the ELF header is complete and has
the magic number; a header that `readi` cannot read in full is `none`. -/
structure Image where
  valid : Bool
  phdrs : List (Option Phdr)
  argv : List (List UInt8)

/-- The loop of `loaduvm` over `n` pages of the segment from its page `i` on. -/
def loadLoop (ph : Phdr) (d : PageDir) : Nat → Nat → Mem → Option (Bool × Mem)
  | 0, _, m => some (true, m)
  | n + 1, i, m =>
    match d.lookup (ph.vaddr / pgsize + i) with
    | none => none
    | some pte =>
      let page : Page := fun off =>
        if i * pgsize + off.val < ph.filesz then ph.data (i * pgsize + off.val)
        else m.frame pte.ppn off
      if min ph.filesz (i * pgsize + pgsize) ≤ ph.avail then
        loadLoop ph d n (i + 1) (m.setFrame pte.ppn page)
      else some (false, m)

def loaduvm (m : Mem) (d : PageDir) (ph : Phdr) : Option (Bool × Mem) :=
  if ph.vaddr % pgsize = 0 then loadLoop ph d (pages ph.filesz) 0 m else none

def loadSegments : List (Option Phdr) → Nat → PageDir → Mem →
    Option (Option Nat × PageDir × Mem)
  | [], sz, d, m => some (some sz, d, m)
  | none :: _, _, d, m => some (none, d, m)
  | some ph :: rest, sz, d, m =>
    if ph.load = false then loadSegments rest sz d m
    else if ph.memsz < ph.filesz then some (none, d, m)
    else match allocuvm m d sz ((ph.vaddr + ph.memsz) % wordSize) with
      | none => none
      | some (0, d, m) => some (none, d, m)
      | some (sz, d, m) =>
        match loaduvm m d ph with
        | none => none
        | some (false, m) => some (none, d, m)
        | some (true, m) => loadSegments rest sz d m

/-- The pages that the entries of `kmap` map, without `PTE_U`. -/
def kernelMapped (v : Nat) : Bool :=
  (upages ≤ v && v < upages + phystop / pgsize) || devspace / pgsize ≤ v

/-- The frame behind a user page, or 0. A missing table is dereferenced. -/
def uva2ka (d : PageDir) (v : Nat) : Option (Option Nat) :=
  if kernelMapped v then some none
  else match d.lookup v with
    | none => none
    | some pte => some (if pte.p && pte.flags.u then some pte.ppn else none)

/-- `copyout(pgdir, va, p, len)`, one page at a time; `false` is -1. The fuel
is the length. -/
def copyoutLoop (d : PageDir) : Nat → Nat → List UInt8 → Mem → Option (Bool × Mem)
  | _, _, [], m => some (true, m)
  | 0, _, _ :: _, m => some (true, m)
  | fuel + 1, va, bytes, m =>
    match uva2ka d (va / pgsize) with
    | none => none
    | some none => some (false, m)
    | some (some q) =>
      let start := va % pgsize
      let n := pgsize - start
      let page : Page := fun off =>
        if start ≤ off.val then (bytes[off.val - start]?).getD (m.frame q off)
        else m.frame q off
      copyoutLoop d fuel ((va / pgsize + 1) * pgsize) (bytes.drop n) (m.setFrame q page)

def copyout (m : Mem) (d : PageDir) (va : Nat) (bytes : List UInt8) : Option (Bool × Mem) :=
  copyoutLoop d bytes.length va bytes m

/-- The argument strings: the stack pointer and the addresses pushed so far. -/
def pushArgs (d : PageDir) : List (List UInt8) → Nat → List Nat → Mem →
    Option (Option (Nat × List Nat) × Mem)
  | [], sp, ustack, m => some (some (sp, ustack), m)
  | arg :: rest, sp, ustack, m =>
    if maxarg ≤ ustack.length then some (none, m)
    else
      let sp := (sp + wordSize - (arg.length + 1)) % wordSize / 4 * 4
      match copyout m d sp (arg ++ [0]) with
      | none => none
      | some (false, m) => some (none, m)
      | some (true, m) => pushArgs d rest sp (ustack ++ [sp]) m

def wordBytes (word : Nat) : List UInt8 :=
  [UInt8.ofNat word, UInt8.ofNat (word / 0x100), UInt8.ofNat (word / 0x10000),
    UInt8.ofNat (word / 0x1000000)]

/-- The fake return address, `argc`, `argv` and the argument vector. -/
def argBlock (sp : Nat) (ustack : List Nat) : List Nat :=
  [0xffffffff, ustack.length, (sp + wordSize - (ustack.length + 1) * 4) % wordSize] ++
    ustack ++ [0]

def argBlockAddr (sp : Nat) (ustack : List Nat) : Nat :=
  (sp + wordSize - (argBlock sp ustack).length * 4) % wordSize

/-- The arguments on the stack below `sz`; `false` is `goto bad`. -/
def copyArgs (img : Image) (sz : Nat) (d : PageDir) (m : Mem) : Option (Bool × Mem) :=
  match pushArgs d img.argv sz [] m with
  | none => none
  | some (none, m) => some (false, m)
  | some (some (sp, ustack), m) =>
    copyout m d (argBlockAddr sp ustack) ((argBlock sp ustack).flatMap wordBytes)

/-- The stack of the new image: an inaccessible page, the stack page and the
arguments on it. -/
def setupStack (img : Image) (sz : Nat) (d : PageDir) (m : Mem) :
    Option (Option Nat × PageDir × Mem) :=
  match allocuvm m d (pages sz * pgsize) (pages sz * pgsize + 2 * pgsize) with
  | none => none
  | some (0, d, m) => some (none, d, m)
  | some (sz, d, m) =>
    match clearpteu d (sz - 2 * pgsize) with
    | none => none
    | some d =>
      match copyArgs img sz d m with
      | none => none
      | some (false, m) => some (none, d, m)
      | some (true, m) => some (some sz, d, m)

/-- `exec` up to the commit: the new directory with its size, or `none` inside
after `goto bad`. -/
def loadImage (m : Mem) (img : Image) : Option (Option (PageDir × Nat) × Mem) :=
  if img.valid = false then some (none, m)
  else match setupkvm m with
    | (none, m) => some (none, m)
    | (some d, m) =>
      match loadSegments img.phdrs 0 d m with
      | none => none
      | some (none, d, m) => (freevm m d).map fun m => (none, m)
      | some (some sz, d, m) =>
        match setupStack img sz d m with
        | none => none
        | some (none, d, m) => (freevm m d).map fun m => (none, m)
        | some (some sz, d, m) => some (some (d, sz), m)

end Xv6.Vm
