import Cervus.Lib.Memory

/-! Signal frames of `signal.c`, the calls that return from them, and the way back to user
mode of `syscall_asm.asm`. -/

namespace Cervus.Signal

def userTop : Nat := 0x800000000000

def sigKill : Nat := 9
def sigSegv : Nat := 11
def sigChld : Nat := 17
def sigStop : Nat := 19

def saSiginfo : Word := 0x4
def saOnstack : Word := 0x08000000
def saRestart : Word := 0x10000000
def saNodefer : Word := 0x40000000
def saResethand : Word := 0x80000000

def bit (sig : Nat) : Word := 1#64 <<< sig

def unblockable : Word := bit sigKill ||| bit sigStop

inductive Abi
  | native | linux | freebsd
  deriving DecidableEq

inductive Ret
  | sysret | iret | compat
  deriving DecidableEq

structure Regs where
  r8 : Word
  r9 : Word
  r10 : Word
  r11 : Word
  r12 : Word
  r13 : Word
  r14 : Word
  r15 : Word
  rdi : Word
  rsi : Word
  rbp : Word
  rbx : Word
  rdx : Word
  rax : Word
  rcx : Word
  rsp : Word
  rip : Word
  rflags : Word
  deriving DecidableEq

def Regs.words (r : Regs) : List Word :=
  [r.r8, r.r9, r.r10, r.r11, r.r12, r.r13, r.r14, r.r15, r.rdi, r.rsi, r.rbp, r.rbx, r.rdx, r.rax,
    r.rcx, r.rsp,
    r.rip, r.rflags]

/-- What the task keeps of its registers while it is in the kernel; `r11` holds the flags. -/
structure Saved where
  r8 : Word
  r9 : Word
  r10 : Word
  r11 : Word
  r12 : Word
  r13 : Word
  r14 : Word
  r15 : Word
  rdi : Word
  rsi : Word
  rbp : Word
  rbx : Word
  rdx : Word
  rcx : Word
  rsp : Word
  rip : Word
  iretR11 : Word

structure Siginfo where
  code : BitVec 32
  pid : BitVec 32
  uid : BitVec 32
  status : BitVec 32
  addr : Word
  trapno : BitVec 32
  err : BitVec 32
  value : Word

def siKernel : BitVec 32 := 0x80

structure Queued where
  sig : Nat
  code : BitVec 32
  pid : BitVec 32
  uid : BitVec 32
  value : Word

structure Task where
  abi : Abi
  user : Saved
  retIret : Ret
  pending : Word
  blocked : Word
  savedMask : Word
  savedValid : Bool
  info : Nat → Siginfo
  rtq : List Queued
  handler : Nat → Word
  flags : Nat → Word
  restorer : Nat → Word
  mask : Nat → Word
  ssFlags : BitVec 32
  ssSp : Word
  ssSize : Word
  fsel : BitVec 16
  /-- The registers of the floating-point unit as they are saved. -/
  fpu : List (BitVec 8)

/-- The user's memory, and which ranges the kernel can bring in for reading or writing. -/
structure Space where
  mem : Memory
  populate : Nat → Nat → Bool → Bool

def Space.rangeOk (s : Space) (a len : Nat) (write : Bool) : Bool :=
  0x1000 ≤ a && a < userTop && len ≤ userTop && a + len ≤ userTop &&
    (len == 0 || s.populate a len write)

structure Fpu where
  xcr0 : Bool
  areaSize : Nat
  area_le : 512 ≤ areaSize
  area_max : areaSize ≤ 4096

def Fpu.frameBytes (c : Fpu) : Nat := if c.xcr0 then c.areaSize + 4 else 512

/-! The return to user mode. -/

def userFlags (w : Word) : Word := w &&& 0x3C0FFF#64 ||| 0x202#64

/-- The flags a program can change: CF, PF, AF, ZF, SF, TF, DF, OF, NT, AC and ID. -/
def userModifiable : Word := 0x244DD5

def ntBit : Nat := 14

inductive Exit
  | user (r : Regs)
  | zeroRip
  | badRip
  | badRsp
  | iretFault
  deriving DecidableEq

def Saved.regs (u : Saved) (rax rcx r11 : Word) : Regs where
  r8 := u.r8
  r9 := u.r9
  r10 := u.r10
  r11 := r11
  r12 := u.r12
  r13 := u.r13
  r14 := u.r14
  r15 := u.r15
  rdi := u.rdi
  rsi := u.rsi
  rbp := u.rbp
  rbx := u.rbx
  rdx := u.rdx
  rax := rax
  rcx := rcx
  rsp := u.rsp
  rip := u.rip
  rflags := userFlags u.r11

/-- From `.no_resched` on, where `nt` is the processor's NT flag: the entry of a system call does
not mask it, a switch of tasks does not save it, and `iretq` faults with it. -/
def userReturn (nt : Bool) (t : Task) (rax : Word) : Exit :=
  if t.user.rip = 0 then .zeroRip
  else match t.retIret with
    | .sysret =>
      if t.user.rip >>> 47 ≠ 0 then .badRip
      else if t.user.rsp >>> 47 ≠ 0 then .badRsp
      else .user (t.user.regs rax t.user.rip (userFlags t.user.r11))
    | _ => if nt then .iretFault else .user (t.user.regs rax t.user.rcx t.user.iretR11)

/-! The calls that return from a handler; `none` when the task is terminated. -/

def sigframeMagic : Word := 0x313046535643

def ucontextSize : Nat := 88
def extSize : Nat := 32
def kUcontextSize : Nat := 312
def code32 : BitVec 16 := 0x23
def code64 : BitVec 16 := 0x33
def userData : BitVec 16 := 0x2b

def restoreUserFpu (c : Fpu) (s : Space) (malloc : Bool) (up : Word) : Bool :=
  s.rangeOk up.toNat 512 false && (!c.xcr0 || malloc)

def greg (m : Memory) (up i : Nat) : Word := m.word (up + 40 + 8 * i)

def restoreContext (c : Fpu) (malloc : Bool) (t : Task) (s : Space) (up : Nat) (ret : Ret) :
    Option (Task × Word) :=
  let g := greg s.mem up
  if ¬s.rangeOk up kUcontextSize false then none
  else if userTop ≤ (g 16).toNat ∨ userTop ≤ (g 15).toNat then none
  else
    let fpregs := s.mem.word (up + 224)
    if fpregs ≠ 0 ∧ ¬restoreUserFpu c s malloc fpregs then none
    else some ({ t with
      user :=
        { r8 := g 0, r9 := g 1, r10 := g 2, r11 := g 17, iretR11 := g 3, r12 := g 4,
          r13 := g 5, r14 := g 6, r15 := g 7, rdi := g 8, rsi := g 9, rbp := g 10,
          rbx := g 11, rdx := g 12, rcx := g 14, rsp := g 15, rip := g 16 }
      blocked := s.mem.word (up + 296) &&& ~~~unblockable
      retIret := if (g 18).setWidth 16 = code32 then .compat else ret }, g 13)

def linuxRtSigreturn (c : Fpu) (malloc : Bool) (t : Task) (s : Space) : Option (Task × Word) :=
  restoreContext c malloc t s t.user.rsp.toNat .iret

def sysRtSigreturn (c : Fpu) (malloc : Bool) (t : Task) (s : Space) : Option (Task × Word) :=
  let sp := t.user.rsp.toNat
  let uc i := s.mem.word (sp + 8 * i)
  let ext i := s.mem.word (sp + ucontextSize + 8 * i)
  if ¬s.rangeOk sp (ucontextSize + extSize) false then none
  else if ext 0 ≠ sigframeMagic then
    some ({ t with
      user :=
        { t.user with
          rip := uc 0, rsp := uc 1, r11 := uc 2, rbx := uc 4, rbp := uc 5, r12 := uc 6, r13 :=
            uc 7, r14 := uc 8,
          r15 := uc 9 }
      blocked := uc 10 &&& ~~~unblockable
      retIret := .sysret }, uc 3)
  else restoreContext c malloc t s (ext 2).toNat (if (ext 1).getLsbD 0 then .iret else .sysret)

def sigL2b : List Nat :=
  [0, 1, 2, 3, 4, 5, 6, 10, 8, 9, 30, 11, 31, 13, 14, 15,
   7, 20, 19, 17, 18, 21, 22, 16, 24, 25, 26, 27, 28, 23, 29, 12,
   32, 33, 65, 66, 67, 68, 69, 70, 71, 72, 73, 74, 75, 76, 77, 78,
   79, 80, 81, 82, 83, 84, 85, 86, 87, 88, 89, 90, 91, 92, 93, 0]

def fbSigToLinux (b : Nat) : Nat :=
  ((List.range 64).drop 1).find? (fun i => sigL2b.getD i 0 == b) |>.getD 0

def fbsdSigsetToLinux (lo hi : Word) : Word :=
  ((List.range 128).map (· + 1)).foldl (fun m b =>
    if ((if b ≤ 64 then lo else hi).getLsbD ((b - 1) % 64)) && 0 < fbSigToLinux b
      then m ||| bit (fbSigToLinux b)
    else m) 0

def fbUcontextSize : Nat := 880
def fbXmm : Word := 0x10002

def freebsdSigreturn (c : Fpu) (malloc : Bool) (t : Task) (s : Space) (ucp : Word) :
    Option (Task × Word) :=
  let up := ucp.toNat
  -- the context follows the 16 bytes of the mask
  let mc i := s.mem.word (up + 16 + 8 * i)
  if ¬s.rangeOk up fbUcontextSize false then none
  else if userTop ≤ (mc 20).toNat ∨ userTop ≤ (mc 23).toNat then none
  else if mc 26 = fbXmm ∧ mc 27 ≠ 0x20000 ∧ ¬restoreUserFpu c s malloc (ucp + 16 + 224) then none
  else some ({ t with
    user :=
      { r8 := mc 5, r9 := mc 6, r10 := mc 10, iretR11 := mc 11,
        r11 := t.user.r11 &&& ~~~0x3C0FFF#64 ||| mc 22 &&& 0x3C0FFF#64,
        r12 := mc 12, r13 := mc 13, r14 := mc 14, r15 := mc 15, rdi := mc 1, rsi := mc 2,
        rbp := mc 9, rbx := mc 8, rdx := mc 3, rcx := mc 4, rsp := mc 23, rip := mc 20 }
    blocked := fbsdSigsetToLinux (s.mem.word up) (s.mem.word (up + 8)) &&& ~~~unblockable
    retIret := .iret }, mc 7)

/-- The call of the task's own interface; the context is the call's argument on FreeBSD only. -/
def sigreturn (c : Fpu) (malloc : Bool) (t : Task) (s : Space) (ucp : Word) :
    Option (Task × Word) :=
  match t.abi with
  | .native => sysRtSigreturn c malloc t s
  | .linux => linuxRtSigreturn c malloc t s
  | .freebsd => freebsdSigreturn c malloc t s ucp

end Cervus.Signal
