import Cervus.Signal.Model

/-! What a return from a signal handler can leave in the task, whatever the frame holds. -/

namespace Cervus.Signal

section
theorem shiftRight_eq_zero_iff (w : Word) : w >>> 47 = 0 ↔ w.toNat < userTop := by
  rw [← BitVec.toNat_inj, BitVec.toNat_ushiftRight, Nat.shiftRight_eq_div_pow]
  simp only [BitVec.ofNat_eq_ofNat, BitVec.toNat_ofNat, Nat.zero_mod, userTop]
  omega

/-- The task can go back to user mode, and can still be killed and stopped. -/
structure Sane (t : Task) (rax : Word) : Prop where
  rip : t.user.rip.toNat < userTop
  rsp : t.user.rsp.toNat < userTop
  unblocked : t.blocked &&& unblockable = 0
  not_badRip : ∀ nt, userReturn nt t rax ≠ .badRip
  not_badRsp : ∀ nt, userReturn nt t rax ≠ .badRsp

theorem sane_of {t : Task} (rax : Word) (hrip : t.user.rip.toNat < userTop)
    (hrsp : t.user.rsp.toNat < userTop) (hb : t.blocked &&& unblockable = 0) : Sane t rax := by
  have hr := (shiftRight_eq_zero_iff _).mpr hrip
  have hs := (shiftRight_eq_zero_iff _).mpr hrsp
  refine ⟨hrip, hrsp, hb, fun nt => ?_, fun nt => ?_⟩ <;>
    cases ht : t.retIret <;> simp only [userReturn, ht, hr, hs] <;> split_ifs <;> simp_all

theorem and_not_unblockable (w : Word) : w &&& ~~~unblockable &&& unblockable = 0 := by
  rw [BitVec.and_assoc, BitVec.and_comm (~~~unblockable), BitVec.and_not_self]
  exact BitVec.and_zero

variable {c : Fpu} {malloc : Bool} {t t' : Task} {s : Space} {rax ucp : Word}

theorem restoreContext_sane {up : Nat} {ret : Ret}
    (h : restoreContext c malloc t s up ret = some (t', rax)) :
    Sane t' rax := by
  simp only [restoreContext] at h
  split_ifs at h with h1 h2 h3 <;>
  · cases h
    obtain ⟨hrip, hrsp⟩ := not_or.mp h2
    exact sane_of _ (Nat.not_le.mp hrip) (Nat.not_le.mp hrsp) (and_not_unblockable _)

theorem freebsdSigreturn_sane (h : freebsdSigreturn c malloc t s ucp = some (t', rax)) :
    Sane t' rax := by
  simp only [freebsdSigreturn] at h
  split_ifs at h with h1 h2 h3
  cases h
  obtain ⟨hrip, hrsp⟩ := not_or.mp h2
  exact sane_of _ (Nat.not_le.mp hrip) (Nat.not_le.mp hrsp) (and_not_unblockable _)

def shortFrame (t : Task) (s : Space) : Prop :=
  s.rangeOk t.user.rsp.toNat (ucontextSize + extSize) false = true ∧
    s.mem.word (t.user.rsp.toNat + ucontextSize) ≠ sigframeMagic

/-- A return is safe for every frame but one without the extension, which has to be checked. -/
theorem sigreturn_sane_iff (c : Fpu) (malloc : Bool) (t : Task) (s : Space) (ucp : Word) :
    (∀ t' rax, sigreturn c malloc t s ucp = some (t', rax) → Sane t' rax) ↔
      (t.abi = .native → shortFrame t s →
        (s.mem.word t.user.rsp.toNat).toNat < userTop ∧
        (s.mem.word (t.user.rsp.toNat + 8)).toNat < userTop) := by
  constructor
  · rintro h habi ⟨hr, hm⟩
    have hret : ∃ p, sigreturn c malloc t s ucp = some p ∧
      p.1.user.rip = s.mem.word t.user.rsp.toNat ∧
        p.1.user.rsp = s.mem.word (t.user.rsp.toNat + 8) := by
      simp only [sigreturn, habi, sysRtSigreturn, Nat.mul_zero, Nat.add_zero]
      rw [if_neg (by simpa using hr), if_pos hm]
      exact ⟨_, rfl, rfl, rfl⟩
    obtain ⟨p, hp, hrip, hrsp⟩ := hret
    have hs := h p.1 p.2 hp
    rw [← hrip, ← hrsp]
    exact ⟨hs.rip, hs.rsp⟩
  · intro hc t' rax h
    unfold sigreturn at h
    split at h
    next habi =>
      simp only [sysRtSigreturn] at h
      split_ifs at h with hr hm
      · cases h
        obtain ⟨hrip, hrsp⟩ := hc habi ⟨by simpa using hr, hm⟩
        exact sane_of _ hrip hrsp (and_not_unblockable _)
      · exact restoreContext_sane h
      · exact restoreContext_sane h
    next => exact restoreContext_sane h
    next => exact freebsdSigreturn_sane h

def Task.plain (abi : Abi) (rsp : Word) : Task where
  abi := abi
  user := ⟨0, 0, 0, 0, 0, 0, 0, 0, 0, 0, 0, 0, 0, 0, rsp, 0, 0⟩
  retIret := .sysret
  pending := 0
  blocked := 0
  savedMask := 0
  savedValid := false
  info _ := ⟨0, 0, 0, 0, 0, 0, 0, 0⟩
  rtq := []
  handler _ := 0
  flags _ := 0
  restorer _ := 0
  mask _ := 0
  ssFlags := 0
  ssSp := 0
  ssSize := 0
  fsel := 0
  fpu := []

def topWord : Space where
  mem x := if x = 0x1005 then 0x80 else 0
  populate _ _ _ := true

def plainFpu : Fpu := ⟨false, 512, Nat.le_refl _, by decide⟩

/-- A short frame takes the kernel to its panic. -/
theorem shortFrame_badRip :
    ∃ t' rax, sigreturn plainFpu true (.plain .native 0x1000) topWord 0 = some (t', rax) ∧
      userReturn false t' rax = .badRip :=
  ⟨_, _, rfl, by decide⟩

end

/-! Delivery of a signal to its handler: the choice of the signal, the frame on the user's
stack and the registers the handler starts with, from a system call and from an interrupt.
Tasks are native or of the Linux interface here: those of FreeBSD have a frame of their own. -/

open List

def sigDefaultIgnore (sig : Nat) : Bool := sig ∈ [17, 28, 23, 18, 29, 19, 20, 21, 22]

def sigrtmin : Nat := 32

def Task.ignores (t : Task) (sig : Nat) : Bool :=
  t.handler sig == 1 || (t.handler sig == 0 && sigDefaultIgnore sig)

def Task.discard (t : Task) (sig : Nat) : Task :=
  { t with
    rtq := if sigrtmin ≤ sig then t.rtq.filter (·.sig ≠ sig) else t.rtq
    pending := t.pending &&& ~~~bit sig }

def ctz (w : Word) : Nat := ((range 64).find? w.getLsbD).getD 64

def pickSignal : Nat → Task → Task × Option Nat
  | 0, t => (t, none)
  | fuel + 1, t =>
    let deliverable := t.pending &&& ~~~t.blocked
    if deliverable = 0 then (t, none)
    else
      let sig := ctz deliverable
      if sig = 0 then pickSignal fuel { t with pending := t.pending &&& ~~~1 }
      else if sig = sigKill then (t, some sig)
      else if t.ignores sig then pickSignal fuel (t.discard sig)
      else (t, some sig)

def takeSignal (t : Task) (sig : Nat) : Task × Siginfo :=
  if sigrtmin ≤ sig then
    let more := 1 < (t.rtq.filter (·.sig = sig)).length
    let pending := if more then t.pending else t.pending &&& ~~~bit sig
    match t.rtq.find? (·.sig = sig) with
    | some q =>
      ({ t with pending, rtq := t.rtq.eraseP (·.sig = sig) },
        ⟨q.code, q.pid, q.uid, 0, 0, 0, 0, q.value⟩)
    | none => ({ t with pending }, ⟨siKernel, 0, 0, 0, 0, 0, 0, 0⟩)
  else ({ t with pending := t.pending &&& ~~~bit sig }, t.info sig)

def siginfoWords (sig : Nat) (si : Siginfo) : List Word :=
  let fromFault : Bool := 0 < si.code.toInt && si.code != siKernel
  let (w2, w3) : Word × Word :=
    if fromFault ∧ sig ∈ [11, 7, 4, 8, 5] then (si.addr, 0)
    else if sig = sigChld ∧ fromFault then
      (si.pid.setWidth 64 ||| si.uid.setWidth 64 <<< 32, si.status.setWidth 64)
    else (si.pid.setWidth 64 ||| si.uid.setWidth 64 <<< 32, si.value)
  [BitVec.ofNat 64 sig, si.code.setWidth 64, w2, w3] ++ replicate 12 0

/-! Where the frame goes. -/

def Task.onAltstack (t : Task) (sp : Word) : Bool :=
  t.ssSize != 0 && t.ssSp.toNat < sp.toNat && sp.toNat ≤ (t.ssSp + t.ssSize).toNat

def Task.useAlt (t : Task) (sig : Nat) (rsp : Word) : Bool :=
  (t.flags sig &&& saOnstack) != 0 && t.ssSize != 0 && (t.ssFlags &&& 2) == 0 && !t.onAltstack rsp

def Task.frameTop (t : Task) (sig : Nat) (rsp : Word) : Word :=
  if t.useAlt sig rsp then t.ssSp + t.ssSize else rsp - 128

def Fpu.frameSize (c : Fpu) : Nat := (640 + c.frameBytes + 63) / 64 * 64

def align (w : Word) (k : Nat) : Word := w >>> k <<< k

structure Place where
  sp : Word
  stop : Nat
  uc : Word
  fp : Word

def Task.place (t : Task) (c : Fpu) (sig : Nat) (rsp : Word) : Place :=
  let top := t.frameTop sig rsp
  match t.abi with
  | .linux =>
    let fp := align (top - BitVec.ofNat 64 c.frameBytes) 6
    let sp := align (fp - 448) 4 - 8
    { sp, stop := fp.toNat + c.frameBytes, uc := sp + 8, fp }
  | _ =>
    let sp := align (top - BitVec.ofNat 64 c.frameSize) 6
    { sp, stop := sp.toNat + c.frameSize, uc := sp + 272, fp := sp + 640 }

/-! What it holds. -/

def Task.resumeMask (t : Task) : Word := if t.savedValid then t.savedMask else t.blocked

def Task.ssReport (t : Task) (rsp : Word) : Word :=
  if t.ssSize ≠ 0 then (if t.onAltstack rsp then 1 else 0) else 2

def kUcontext (c : Fpu) (t : Task) (si : Siginfo) (r : Regs) (cs ss : BitVec 16) (fp : Word) :
    List Word :=
  [if t.abi = .linux ∧ c.xcr0 then 1 else 0, 0, t.ssSp, t.ssReport r.rsp, t.ssSize] ++ r.words ++
    [cs.setWidth 64 ||| t.fsel.setWidth 64 <<< 32 ||| ss.setWidth 64 <<< 48, si.err.signExtend 64,
      si.trapno.signExtend 64, t.resumeMask, si.addr, fp] ++ replicate 8 0 ++ [t.resumeMask, 0]

def ucontext (t : Task) (r : Regs) : List Word :=
  [r.rip, r.rsp, r.rflags, r.rax, r.rbx, r.rbp, r.r12, r.r13, r.r14, r.r15, t.resumeMask]

def sigExt (t : Task) (sig : Nat) (full : Bool) (sp : Word) : List Word :=
  [sigframeMagic, (if full then 1 else 0) ||| (if (t.flags sig &&& saSiginfo) ≠ 0 then 2 else 0),
    sp + 272, sp + 144]

def zeros (n : Nat) : List (BitVec 8) := replicate n 0

def Task.writeFrame (t : Task) (c : Fpu) (sig : Nat) (si : Siginfo) (r : Regs) (full : Bool)
    (cs ss : BitVec 16) (p : Place) (m : Memory) : Memory :=
  let a := p.sp.toNat
  let fpu := t.fpu.take c.frameBytes
  match t.abi with
  | .linux =>
    m |>.storeBytes a (zeros 448)
      |>.storeWords a [t.restorer sig]
      |>.storeWords p.uc.toNat (kUcontext c t si r cs ss p.fp)
      |>.storeWords (a + 320) (siginfoWords sig si)
      |>.storeBytes p.fp.toNat fpu
  | _ =>
    m |>.storeBytes a (zeros c.frameSize)
      |>.storeWords a [t.handler sig, BitVec.ofNat 64 sig]
      |>.storeWords (a + 16) (ucontext t r)
      |>.storeWords (a + 104) (sigExt t sig full p.sp)
      |>.storeWords (a + 144) (siginfoWords sig si)
      |>.storeWords p.uc.toNat (kUcontext c t si r cs ss p.fp)
      |>.storeBytes p.fp.toNat fpu

def Task.enter (t : Task) (sig : Nat) : Task :=
  let blocked := t.blocked ||| t.mask sig
  { t with
    savedValid := false
    blocked := if (t.flags sig &&& saNodefer) = 0 then blocked ||| bit sig else blocked
    handler := if (t.flags sig &&& saResethand) ≠ 0 then Function.update t.handler sig 0
      else t.handler }

/-- `build_frame` and `build_frame_linux`; the last component is where the handler starts. -/
def buildFrame (c : Fpu) (t : Task) (s : Space) (sig : Nat) (si : Siginfo) (r : Regs) (full : Bool)
    (cs ss : BitVec 16) : Option (Task × Space × Word) :=
  let p := t.place c sig r.rsp
  let top := t.frameTop sig r.rsp
  let len := match t.abi with | .linux => top.toNat - p.sp.toNat | _ => c.frameSize
  if t.restorer sig = 0 then none
  else if p.sp.toNat < 0x1000 ∨ userTop < top.toNat then none
  else if ¬s.rangeOk p.sp.toNat len true then none
  else
    let t' := t.enter sig
    some (t', { s with mem := t.writeFrame c sig si r full cs ss p s.mem },
      match t.abi with | .linux => t'.handler sig | _ => t.restorer sig)

/-! From a system call. -/

def eintr : Word := -4

def syscallRestartable (abi : Abi) (nr : Word) : Bool :=
  match abi with
  | .linux =>
    nr.toNat ∈ [0, 1, 2, 16, 17, 18, 19, 20, 42, 43, 44, 45, 46, 47, 61, 72, 247, 257, 288, 295,
      296]
  | _ =>
    nr.toNat ∈ [20, 21, 122, 123, 654, 655, 656, 657, 22, 629, 5, 650, 651, 580, 575, 576, 577, 90,
      91, 586, 587,
      27, 31]

def regsFromTask (t : Task) (retval : Word) : Regs :=
  { t.user.regs retval (if t.retIret = .sysret then t.user.rip else t.user.rcx)
      (if t.retIret = .sysret then t.user.r11 else t.user.iretR11) with
    rflags := t.user.r11 }

def Task.restarts (t : Task) (retval nr : Word) (sig : Nat) : Bool :=
  retval == eintr && t.retIret == .sysret && (t.flags sig &&& saRestart) != 0 &&
    syscallRestartable t.abi nr

inductive Delivery (α : Type)
  | none (t : Task) (a : α)
  | terminated (sig : Nat)
  | entered (sig : Nat) (t : Task) (s : Space) (a : α)

def resumeRegs (t : Task) (retval nr : Word) (sig : Nat) : Regs :=
  let r := regsFromTask t retval
  if t.restarts retval nr sig then { r with rax := nr, rip := r.rip - 2 } else r

def signalDeliverPending (c : Fpu) (t : Task) (s : Space) (retval nr : Word) : Delivery Word :=
  match pickSignal 65 t with
  | (t, none) => .none (if t.savedValid then { t with blocked := t.savedMask, savedValid := false }
    else t) retval
  | (t, some sig) =>
    if sig = sigKill ∨ t.handler sig = 0 then .terminated sig
    else
      let (t, si) := takeSignal t sig
      let r := resumeRegs t retval nr sig
      let cs := if t.retIret = .compat then code32 else code64
      match buildFrame c t s sig si r (t.retIret ≠ .sysret) cs userData with
      | none => .terminated sigSegv
      | some (t', s', rip) =>
        let sp := (t.place c sig r.rsp).sp
        let u := { t'.user with rsp := sp, rip := rip, r11 := t'.user.r11 &&& ~~~0x500#64 }
        match t.abi with
        | .linux =>
          .entered sig { t' with
            retIret := .sysret
            user := { u with rdi := BitVec.ofNat 64 sig, rsi := sp + 320, rdx := sp + 8 } } s' 0
        | _ => .entered sig { t' with retIret := .sysret, user := u } s' retval

/-! From an interrupt. -/

structure IntFrame where
  regs : Regs
  cs : BitVec 16
  ss : BitVec 16

def signalIrqReturn (c : Fpu) (t : Task) (s : Space) (f : IntFrame) : Delivery IntFrame :=
  match pickSignal 65 t with
  | (t, none) => .none t f
  | (t, some sig) =>
    if sig = sigKill ∨ t.handler sig = 0 then .terminated sig
    else
      let (t, si) := takeSignal t sig
      match buildFrame c t s sig si f.regs true f.cs f.ss with
      | none => .terminated sigSegv
      | some (t', s', rip) =>
        let sp := (t.place c sig f.regs.rsp).sp
        let r := { f.regs with rsp := sp, rip := rip, rflags := f.regs.rflags &&& ~~~0x500#64 }
        match t.abi with
        | .linux =>
          .entered sig t' s'
            ⟨{ r with rdi := BitVec.ofNat 64 sig, rsi := sp + 320, rdx := sp + 8, rax := 0 },
              code64, userData⟩
        | _ => .entered sig t' s' ⟨r, code64, userData⟩

end Cervus.Signal
