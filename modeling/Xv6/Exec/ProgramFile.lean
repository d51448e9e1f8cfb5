import Xv6.Vm.Growproc

/-! `exec.c` from the bytes of the program file to the new image, while the rest
of the machine uses the allocator. A result `none` is a panic or the use of a
page-table entry that is not there. -/
namespace Xv6.Exec
open Vm

/-- `readi` of a regular file: the bytes it copies, `none` for -1. -/
def readi (file : List UInt8) (off n : Nat) : Option (List UInt8) :=
  if file.length < off ∨ wordSize ≤ off + n then none else some ((file.drop off).take n)

/-- A field of `n` bytes of a header, little-endian. -/
def field (bytes : List UInt8) (off : Nat) : Nat → Nat
  | 0 => 0
  | n + 1 => (bytes[off]?.getD 0).toNat + 256 * field bytes (off + 1) n

structure Elfhdr where
  magic : Nat
  entry : Nat
  phoff : Nat
  phnum : Nat

def elfMagic : Nat := 0x464C457F
def elfhdrSize : Nat := 52
def proghdrSize : Nat := 32
def elfProgLoad : Nat := 1

def elfhdr (bytes : List UInt8) : Elfhdr :=
  ⟨field bytes 0 4, field bytes 24 4, field bytes 28 4, field bytes 44 2⟩

structure Proghdr where
  type : Nat
  off : Nat
  vaddr : Nat
  filesz : Nat
  memsz : Nat

def proghdr (bytes : List UInt8) : Proghdr :=
  ⟨field bytes 0 4, field bytes 4 4, field bytes 8 4, field bytes 16 4, field bytes 20 4⟩

/-- `PTE_ADDR(*walkpgdir(pgdir, va, 0))`, with the kernel half that `setupkvm`
maps: physical memory from `KERNBASE` on and the devices at their addresses. -/
def pteAddr (d : PageDir) (v : Nat) : Option Nat :=
  if v < upages then (d.lookup v).map Pte.ppn
  else if kernelMapped v then some (if v < devspace / pgsize then v - upages else v)
  else none

def overwrite (page : Page) (bytes : List UInt8) : Page :=
  fun off => (bytes[off.val]?).getD (page off)

def loadLoop (file : List UInt8) (ph : Proghdr) (d : PageDir) :
    Nat → Nat → Mem → Option (Bool × Mem)
  | 0, _, m => some (true, m)
  | n + 1, i, m =>
    match pteAddr d ((ph.vaddr / pgsize + i) % (wordSize / pgsize)) with
    | none => none
    | some q =>
      let len := min (ph.filesz - i * pgsize) pgsize
      match readi file ((ph.off + i * pgsize) % wordSize) len with
      | none => some (false, m)
      | some bytes =>
        let m := m.setFrame q (overwrite (m.frame q) bytes)
        if bytes.length = len then loadLoop file ph d n (i + 1) m else some (false, m)

def loaduvm (file : List UInt8) (ph : Proghdr) (d : PageDir) (m : Mem) : Option (Bool × Mem) :=
  if ph.vaddr % pgsize = 0 then loadLoop file ph d (pages ph.filesz) 0 m else none

/-- The loop over the program headers; `false` is `goto bad`. -/
def loadSegments (free : Nat → FreeLists) (file : List UInt8) :
    Nat → Nat → Space → Option (Bool × Space)
  | 0, _, s => some (true, s)
  | n + 1, off, s =>
    match readi file off proghdrSize with
    | none => some (false, s)
    | some bytes =>
      let ph := proghdr bytes
      if bytes.length ≠ proghdrSize then some (false, s)
      else if ph.type ≠ elfProgLoad then
        loadSegments free file n ((off + proghdrSize) % wordSize) s
      else if ph.memsz < ph.filesz then some (false, s)
      else
        match s.allocuvm free ((ph.vaddr + ph.memsz) % wordSize) with
        | none => none
        | some (sz, d, m) =>
          if sz = 0 then some (false, ⟨sz, d, m⟩)
          else
            match loaduvm file ph d m with
            | none => none
            | some (false, m) => some (false, ⟨sz, d, m⟩)
            | some (true, m) =>
              loadSegments free file n ((off + proghdrSize) % wordSize) ⟨sz, d, m⟩

/-- The words below the strings, and the stack pointer; `none` inside is
`goto bad`. -/
def pushBlock (sp : Nat) (ustack : List Nat) (d : PageDir) (m : Mem) : Option (Option Nat × Mem) :=
  (copyout m d (argBlockAddr sp ustack) ((argBlock sp ustack).flatMap wordBytes)).map fun result =>
    (if result.1 then some (argBlockAddr sp ustack) else none, result.2)

def pushStack (argv : List (List UInt8)) (sz : Nat) (d : PageDir) (m : Mem) :
    Option (Option Nat × Mem) :=
  match pushArgs d argv sz [] m with
  | none => none
  | some (none, m) => some (none, m)
  | some (some (sp, ustack), m) => pushBlock sp ustack d m

/-- Two pages at the next page boundary, the first of them inaccessible. -/
def setupStack (free : Nat → FreeLists) (argv : List (List UInt8)) (s : Space) :
    Option (Option Nat × Space) :=
  let s := { s with sz := pages s.sz * pgsize }
  match s.allocuvm free (s.sz + 2 * pgsize) with
  | none => none
  | some (sz, d, m) =>
    if sz = 0 then some (none, ⟨sz, d, m⟩)
    else
      match clearpteu d (sz - 2 * pgsize) with
      | none => none
      | some d =>
        match pushStack argv sz d m with
        | none => none
        | some (esp, m) => some (esp, ⟨sz, d, m⟩)

/-- What the calls of `kalloc` find: those of `setupkvm`, and for each page those
of `allocuvm`, which comes to a page at most once. -/
structure ExecFree where
  kernel : List Nat
  user : Nat → FreeLists

structure Loaded where
  space : Space
  entry : Nat
  esp : Nat

/-- `exec` up to the commit; `none` inside is the return through `bad`. With an
offset of 0 `readi` does not return -1. -/
def loadImage (free : ExecFree) (file : List UInt8) (argv : List (List UInt8)) (m : Mem) :
    Option (Option Loaded × Mem) :=
  let bytes := (readi file 0 elfhdrSize).getD []
  let elf := elfhdr bytes
  if bytes.length < elfhdrSize then some (none, m)
  else if elf.magic ≠ elfMagic then some (none, m)
  else
    match setupkvm { m with freelist := free.kernel } with
    | (none, m) => some (none, m)
    | (some d, m) =>
      match loadSegments free.user file elf.phnum elf.phoff ⟨0, d, m⟩ with
      | none => none
      | some (false, s) => (freevm s.mem s.pgdir).map fun m => (none, m)
      | some (true, s) =>
        match setupStack free.user argv s with
        | none => none
        | some (none, s) => (freevm s.mem s.pgdir).map fun m => (none, m)
        | some (some esp, s) => some (some ⟨s, elf.entry, esp⟩, s.mem)

/-- The part of a path behind the last slash. -/
def lastName : List UInt8 → List UInt8 → List UInt8
  | last, [] => last
  | last, c :: rest => lastName (if c = 47 then rest else last) rest

/-- `proc` and the registers of its trap frame that `exec` sets. -/
structure Caller where
  pgdir : PageDir
  sz : Nat
  name : List UInt8
  eip : Nat
  esp : Nat

/-- `exec(path, argv)`, where `file` is what `namei` finds; `false` is -1. -/
def exec (free : ExecFree) (path : List UInt8) (file : Option (List UInt8))
    (argv : List (List UInt8)) (proc : Caller) (m : Mem) : Option (Caller × Mem × Bool) :=
  match file with
  | none => some (proc, m, false)
  | some file =>
    match loadImage free file argv m with
    | none => none
    | some (none, m) => some (proc, m, false)
    | some (some image, m) =>
      (freevm m proc.pgdir).map fun m =>
        (⟨image.space.pgdir, image.space.sz, (lastName path path).take 15, image.entry, image.esp⟩,
          m, true)

end Xv6.Exec
