import Mathlib.Algebra.Group.Nat.Defs
import Cervus.Signal.Deliver

/-! A handler leaves no trace: the frame that a delivery writes gives back, through the
matching return, the registers and the mask that it found. -/

namespace Cervus.Signal

open Prod BitVec

variable {c : Fpu} {t t' t₂ : Task} {s s' s₂ : Space} {sig : Nat} {si : Siginfo} {r : Regs}
    {full malloc nt : Bool}
  {cs ss : BitVec 16} {rip ucp : Word} {rax w : Word} {a i : Nat} {src : Source}

theorem toNat_sub_of_lt {n : Nat} (hn : n ≤ 2 ^ 16) (h : (w - BitVec.ofNat 64 n).toNat < 2 ^ 63) :
    (w - BitVec.ofNat 64 n).toNat + n = w.toNat := by
  rw [toNat_sub, toNat_ofNat, Nat.mod_eq_of_lt (a := n) (by omega)] at h ⊢
  omega

theorem align_sub_le {n k : Nat} (hn : n ≤ 2 ^ 16) (hk : k ≤ 6)
    (h : (align (w - BitVec.ofNat 64 n) k).toNat < 2 ^ 62) :
    (align (w - BitVec.ofNat 64 n) k).toNat + n ≤ w.toNat ∧
      w.toNat < (align (w - BitVec.ofNat 64 n) k).toNat + n + 2 ^ k := by
  generalize hd : w - BitVec.ofNat 64 n = d at h ⊢
  have hle := Nat.div_mul_le_self d.toNat (2 ^ k)
  have hrem := Nat.lt_div_mul_add (a := d.toNat) (Nat.two_pow_pos k)
  have hk' : 2 ^ k ≤ 2 ^ 6 := Nat.pow_le_pow_right (by omega) hk
  rw [align, toNat_shiftLeft, toNat_ushiftRight, Nat.shiftLeft_eq, Nat.shiftRight_eq_div_pow,
    Nat.mod_eq_of_lt (by omega)] at h ⊢
  have hsub := toNat_sub_of_lt (w := w) hn (by rw [hd]; omega)
  rw [hd] at hsub
  omega

theorem frameBytes_bounds (c : Fpu) : 512 ≤ c.frameBytes ∧ c.frameBytes ≤ 4100 := by
  have h1 := c.area_le
  have h2 := c.area_max
  unfold Fpu.frameBytes
  split_ifs <;> omega

structure Fits (t : Task) (c : Fpu) (sig : Nat) (rsp : Word) : Prop where
  low : 0x1000 ≤ (t.place c sig rsp).sp.toNat
  uc : (t.place c sig rsp).uc.toNat = (t.place c sig rsp).sp.toNat + if t.abi = .linux then 8
    else 272
  fp : (t.place c sig rsp).sp.toNat + (if t.abi = .linux then 448 else 640) ≤
    (t.place c sig rsp).fp.toNat
  fp_stop : (t.place c sig rsp).fp.toNat + c.frameBytes ≤ (t.place c sig rsp).stop
  stop : (t.place c sig rsp).stop ≤ (t.frameTop sig rsp).toNat
  top : (t.frameTop sig rsp).toNat ≤ userTop

theorem fits_of {rsp : Word} (hlow : 0x1000 ≤ (t.place c sig rsp).sp.toNat)
    (hhigh : (t.place c sig rsp).sp.toNat < userTop) (htop : (t.frameTop sig rsp).toNat ≤ userTop) :
    Fits t c sig rsp := by
  obtain ⟨hb1, hb2⟩ := frameBytes_bounds c
  have hsize : 640 + c.frameBytes ≤ c.frameSize ∧ c.frameSize ≤ 2 ^ 16 := by
    unfold Fpu.frameSize
    omega
  generalize hT : t.frameTop sig rsp = top at htop
  by_cases habi : t.abi = .linux
  · simp only [Task.place, habi, hT] at hlow hhigh
    generalize hfp : align (top - BitVec.ofNat 64 c.frameBytes) 6 = fp at hlow hhigh
    generalize ha : align (fp - 448) 4 = a at hlow hhigh
    simp only [userTop] at hhigh htop
    have hsp := toNat_sub_of_lt (w := a) (n :=
      8) (by omega) (by simp only [ofNat_eq_ofNat] at *; omega)
    have hfa := align_sub_le (w := fp) (n := 448) (k := 4) (by omega) (by omega)
      (by simp only [ofNat_eq_ofNat] at *; rw [ha]; omega)
    simp only [ofNat_eq_ofNat] at hlow hhigh hsp hfa ha
    rw [ha] at hfa
    have htf := align_sub_le (w := top) (n := c.frameBytes) (k :=
      6) (by omega) (by omega) (by rw [hfp]; omega)
    rw [hfp] at htf
    constructor <;>
      simp only [Task.place, habi, hT, hfp, ha, if_true, userTop, toNat_add, BitVec.reduceToNat,
        ofNat_eq_ofNat] <;> omega
  · have hp : t.place c sig rsp = (fun sp => ⟨sp, sp.toNat + c.frameSize, sp + 272, sp + 640⟩)
        (align (top - BitVec.ofNat 64 c.frameSize) 6) := by
      cases ha : t.abi <;> simp_all [Task.place]
    simp only [hp] at hlow hhigh
    generalize hsp : align (top - BitVec.ofNat 64 c.frameSize) 6 = sp at hlow hhigh hp
    simp only [userTop] at hhigh htop
    have hts := align_sub_le (w := top) (n := c.frameSize) (k :=
      6) (by omega) (by omega) (by rw [hsp]; omega)
    rw [hsp] at hts
    constructor <;>
      simp only [hp, hT, habi, if_false, userTop, toNat_add, BitVec.reduceToNat, ofNat_eq_ofNat] <;>
        omega

/-! The frame that was written. -/

theorem writeFrame_context {m : Memory} (h : Fits t c sig r.rsp)
    (hw : (kUcontext c t si r cs ss (t.place c sig r.rsp).fp)[i]? = some w) :
    (t.writeFrame c sig si r full cs ss (t.place c sig r.rsp) m).word
    ((t.place c sig r.rsp).uc.toNat + 8 * i) = w := by
  have hi : i < 39 := (List.getElem?_eq_some_iff.mp hw).1
  have huc := h.uc
  have hfp := h.fp
  unfold Task.writeFrame
  split
  · rw [if_pos ‹_›] at huc hfp
    rw [Memory.word_storeBytes_off (by omega), Memory.word_storeWords_off (by omega),
      Memory.word_storeWords hw]
  · rw [if_neg ‹_›] at huc hfp
    rw [Memory.word_storeBytes_off (by omega), Memory.word_storeWords hw]

theorem writeFrame_ext {m : Memory} (h : Fits t c sig r.rsp) (habi : t.abi ≠ .linux)
    (hw : (sigExt t sig full (t.place c sig r.rsp).sp)[i]? = some w) :
    (t.writeFrame c sig si r full cs ss (t.place c sig r.rsp) m).word
      ((t.place c sig r.rsp).sp.toNat + 104 + 8 * i) = w := by
  have hi : i < 4 := (List.getElem?_eq_some_iff.mp hw).1
  have huc := h.uc
  have hfp := h.fp
  rw [if_neg habi] at huc hfp
  unfold Task.writeFrame
  split
  · exact absurd ‹_› habi
  · rw [Memory.word_storeBytes_off (by omega), Memory.word_storeWords_off (by omega),
      Memory.word_storeWords_off (by simp; omega), Memory.word_storeWords hw]

theorem buildFrame_cases (h : buildFrame c t s sig si r full cs ss = some (t', s', rip)) :
    Fits t c sig r.rsp ∧ t' = t.enter sig ∧
      s' = { s with mem := t.writeFrame c sig si r full cs ss (t.place c sig r.rsp) s.mem } ∧
      (t.abi = .linux → rip = (t.enter sig).handler sig) := by
  simp only [buildFrame] at h
  split_ifs at h with h1 h2 h3
  obtain ⟨rfl, rfl, hrip⟩ := mk.inj (Option.some_inj.mp h) |>.imp_right mk.inj
  simp only [Space.rangeOk, Bool.and_eq_true, decide_eq_true_eq] at h3
  exact ⟨fits_of (by omega) h3.1.1.1.2 (by omega), rfl, rfl, fun ha =>
    by simpa only [ha] using hrip.symm⟩

structure Unmodified (p : Place) (s s₂ : Space) : Prop where
  bytes : ∀ x, p.sp.toNat ≤ x → x < p.stop → s₂.mem x = s.mem x
  readable : ∀ a n, p.sp.toNat ≤ a → a + n ≤ p.stop → s₂.populate a n false = true

theorem Unmodified.word {p : Place} (h : Unmodified p s s₂) (h1 : p.sp.toNat ≤ a)
    (h2 : a + 8 ≤ p.stop) :
    s₂.mem.word a = s.mem.word a :=
  Memory.word_congr fun x hx hx' => h.bytes x (by omega) (by omega)

theorem Unmodified.rangeOk (hf : Fits t c sig r.rsp) (h : Unmodified (t.place c sig r.rsp) s s₂)
    {n : Nat} (h1 : (t.place c sig r.rsp).sp.toNat ≤ a) (h2 : a + n ≤ (t.place c sig r.rsp).stop)
    (hn : 0 < n) :
    s₂.rangeOk a n false = true := by
  have h3 := hf.low
  have h4 := hf.stop
  have h5 := hf.top
  simp only [Space.rangeOk, h.readable a n h1 h2, Bool.and_eq_true, decide_eq_true_eq, Bool.or_true,
    and_true]
  omega

/-! The return from it. -/

def Regs.saved (r : Regs) : Saved where
  r8 := r.r8
  r9 := r.r9
  r10 := r.r10
  r11 := r.rflags
  r12 := r.r12
  r13 := r.r13
  r14 := r.r14
  r15 := r.r15
  rdi := r.rdi
  rsi := r.rsi
  rbp := r.rbp
  rbx := r.rbx
  rdx := r.rdx
  rcx := r.rcx
  rsp := r.rsp
  rip := r.rip
  iretR11 := r.r11

theorem setWidth_selectors (a b d : BitVec 16) :
    (a.setWidth 64 ||| b.setWidth 64 <<< 32 ||| d.setWidth 64 <<< 48).setWidth 16 = a := by
  ext i hi
  simp

def Task.restored (t t₂ : Task) (r : Regs) (cs : BitVec 16) (ret : Ret) : Task :=
  { t₂ with
    user := r.saved
    blocked := t.resumeMask &&& ~~~unblockable
    retIret := if cs = code32 then .compat else ret }

/-- Restoring an unmodified frame gives the interrupted context. -/
theorem restoreContext_frame {ret : Ret} (hf : Fits t c sig r.rsp)
    (hu : Unmodified (t.place c sig r.rsp) { s
    with mem := t.writeFrame c sig si r full cs ss (t.place c sig r.rsp) s.mem } s₂) :
    restoreContext c malloc t₂ s₂ (t.place c sig r.rsp).uc.toNat ret =
      if (r.rip.toNat < userTop ∧ r.rsp.toNat < userTop) ∧ (c.xcr0 = true → malloc = true) then
        some (t.restored t₂ r cs ret, r.rax)
      else none := by
  obtain ⟨hlow, huc, hfp, hstop, -, -⟩ := id hf
  have hb := (frameBytes_bounds c).1
  set p := t.place c sig r.rsp
  have hsp : p.sp.toNat ≤ p.uc.toNat := by omega
  have hend : p.uc.toNat + 312 ≤ p.stop := by split_ifs at huc hfp <;> omega
  have hw : ∀ i w, (kUcontext c t si r cs ss p.fp)[i]? = some w →
      s₂.mem.word (p.uc.toNat + 8 * i) = w := by
    intro i w hi
    have hlt : i < 39 := (List.getElem?_eq_some_iff.mp hi).1
    rw [hu.word (by omega) (by omega)]
    exact writeFrame_context hf hi
  have hg : ∀ i w, (kUcontext c t si r cs ss p.fp)[5 + i]? = some w →
      greg s₂.mem p.uc.toNat i = w := by
    intro i w hi
    rw [greg, ← hw (5 + i) w hi]
    congr 1
    omega
  have hfpu : restoreUserFpu c s₂ malloc p.fp = (!c.xcr0 || malloc) := by
    have h1 : p.sp.toNat ≤ p.fp.toNat := by omega
    have h2 : p.fp.toNat + 512 ≤ p.stop := by omega
    rw [restoreUserFpu, hu.rangeOk hf h1 h2 (by omega), Bool.true_and]
  have hfp0 : p.fp ≠ 0 := by
    intro h0
    rw [h0] at hfp
    simp at hfp
    omega
  simp only [restoreContext, hu.rangeOk hf hsp hend (by omega), hg 0 _ rfl, hg 1 _ rfl, hg 2 _ rfl,
    hg 3 _ rfl,
    hg 4 _ rfl, hg 5 _ rfl, hg 6 _ rfl, hg 7 _ rfl, hg 8 _ rfl, hg 9 _ rfl, hg 10 _ rfl,
    hg 11 _ rfl, hg 12 _ rfl,
    hg 13 _ rfl, hg 14 _ rfl, hg 15 _ rfl, hg 16 _ rfl, hg 17 _ rfl, hg 18 _ rfl,
    hw 28 _ rfl, hw 37 _ rfl,
    setWidth_selectors, hfpu, kUcontextSize]
  rw [if_neg (by simp)]
  by_cases hb : r.rip.toNat < userTop ∧ r.rsp.toNat < userTop
  · rw [if_neg (by omega)]
    by_cases hm : c.xcr0 = true → malloc = true
    · rw [if_neg (by simpa [or_iff_not_imp_left] using fun _ => hm)]
      exact (if_pos ⟨hb, hm⟩).symm
    · rw [if_pos ⟨hfp0, by simpa [or_iff_not_imp_left] using hm⟩, if_neg fun h => hm h.2]
  · rw [if_pos (by omega), if_neg fun h => hb h.1]

def Task.frameHead (t : Task) : Word := if t.abi = .linux then 8 else 16

/-- The stack pointer with which the matching return of an unmodified frame is called. -/
structure Returns (t : Task) (p : Place) (s' : Space) (t₂ : Task) (s₂ : Space) : Prop where
  abi : t₂.abi = t.abi
  rsp : t₂.user.rsp = p.sp + t.frameHead
  frame : Unmodified p s' s₂

/-- The same through `sigreturn`. -/
theorem sigreturn_frame (hf : Fits t c sig r.rsp) (habi : t.abi ≠ .freebsd)
    (h : Returns t (t.place c sig r.rsp)
      { s with mem := t.writeFrame c sig si r full cs ss (t.place c sig r.rsp) s.mem } t₂ s₂) :
    sigreturn c malloc t₂ s₂ ucp =
      if (r.rip.toNat < userTop ∧ r.rsp.toNat < userTop) ∧ (c.xcr0 = true → malloc = true) then
        some (t.restored t₂ r cs (if t.abi = .linux ∨ full = true then .iret else .sysret), r.rax)
      else none := by
  have huc := hf.uc
  have hfp := hf.fp
  have hfs := hf.fp_stop
  have htop := hf.top
  set p := t.place c sig r.rsp
  cases ha : t.abi with
  | freebsd => exact absurd ha habi
  | linux =>
    rw [sigreturn, h.abi, ha]
    simp only [linuxRtSigreturn, true_or, if_true]
    have hrsp : t₂.user.rsp = p.uc := by
      simp [h.rsp, Task.frameHead, p, Task.place, ha]
    rw [hrsp]
    exact restoreContext_frame hf h.frame
  | native =>
    have hnl : t.abi ≠ .linux := by simp [ha]
    rw [if_neg hnl] at huc hfp
    have hrsp : t₂.user.rsp.toNat = p.sp.toNat + 16 := by
      rw [h.rsp, Task.frameHead, if_neg hnl, toNat_add]
      simp only [BitVec.reduceToNat, ofNat_eq_ofNat]
      omega
    have hw : ∀ i w, (sigExt t sig full p.sp)[i]? = some w →
        s₂.mem.word (p.sp.toNat + 16 + ucontextSize + 8 * i) = w := by
      intro i w hi
      have hlt : i < 4 := (List.getElem?_eq_some_iff.mp hi).1
      rw [show p.sp.toNat + 16 + ucontextSize + 8 * i =
        p.sp.toNat + 104 + 8 * i by rw [ucontextSize], h.frame.word (by omega) (by omega)]
      exact writeFrame_ext hf hnl hi
    have huc' : p.sp + 272 = p.uc := by simp [p, Task.place, ha]
    rw [sigreturn, h.abi, ha]
    simp only [sysRtSigreturn, hrsp, hw 0 _ rfl, hw 1 _ rfl, hw 2 _ rfl, huc']
    rw [if_neg ?_, if_neg (by simp), restoreContext_frame hf h.frame]
    · cases full <;> split_ifs <;> simp_all
    · rw [h.frame.rangeOk hf (show p.sp.toNat ≤ _ by omega)
        (show _ ≤ p.stop by rw [ucontextSize, extSize]; omega) (by decide)]
      simp

/-! Delivery. -/

def SameButQueue (t t₁ : Task) : Prop := ∃ pending rtq, t₁ = { t with pending, rtq }

theorem SameButQueue.trans {t t₁ t₂ : Task} (h₁ : SameButQueue t t₁) (h₂ : SameButQueue t₁ t₂) :
    SameButQueue t t₂ := by
  obtain ⟨p, q, rfl⟩ := h₁
  obtain ⟨p', q', rfl⟩ := h₂
  exact ⟨p', q', rfl⟩

theorem pickSignal_same (fuel : Nat) (t : Task) : SameButQueue t (pickSignal fuel t).1 := by
  induction fuel generalizing t with
  | zero => exact ⟨_, _, rfl⟩
  | succ fuel ih =>
    rw [pickSignal]
    dsimp only
    split_ifs
    · exact ⟨_, _, rfl⟩
    · exact SameButQueue.trans ⟨_, _, rfl⟩ (ih _)
    · exact ⟨_, _, rfl⟩
    · exact SameButQueue.trans ⟨_, _, rfl⟩ (ih _)
    · exact ⟨_, _, rfl⟩

theorem takeSignal_same (t : Task) (sig : Nat) : SameButQueue t (takeSignal t sig).1 := by
  unfold takeSignal
  split_ifs
  · dsimp only
    split <;> exact ⟨_, _, rfl⟩
  · exact ⟨_, _, rfl⟩

/-- Where the kernel is entered when it delivers a signal. -/
inductive Source
  | syscall (retval nr : Word)
  | interrupt (f : IntFrame)

/-- The signal delivered and the memory with its frame, when a handler is entered. -/
def deliver (c : Fpu) (t : Task) (s : Space) : Source → Option (Nat × Space)
  | .syscall retval nr =>
    match signalDeliverPending c t s retval nr with
    | .entered sig _ s' _ => some (sig, s')
    | _ => none
  | .interrupt f =>
    match signalIrqReturn c t s f with
    | .entered sig _ s' _ => some (sig, s')
    | _ => none

/-- The registers of the interrupted program; a call that is to be made again is interrupted
before its instruction. -/
def interrupted (t : Task) (sig : Nat) : Source → Regs
  | .syscall retval nr => resumeRegs t retval nr sig
  | .interrupt f => f.regs

def Source.whole (t : Task) : Source → Bool
  | .syscall _ _ => t.retIret ≠ .sysret
  | .interrupt _ => true

def Source.restarts (t : Task) (sig : Nat) : Source → Bool
  | .syscall retval nr => t.restarts retval nr sig
  | .interrupt _ => false

theorem taken_same {t₀ : Task} (hpick : pickSignal 65 t = (t₀, some sig)) :
    SameButQueue t (takeSignal t₀ sig).1 := by
  have h₀ := pickSignal_same 65 t
  rw [hpick] at h₀
  exact h₀.trans (takeSignal_same t₀ sig)

theorem entered_cases {retval nr a : Word}
    (h : signalDeliverPending c t s retval nr = .entered sig t' s' a) :
    ∃ t₁ si cs t₂, SameButQueue t t₁ ∧ t.handler sig ≠ 0 ∧ (t.retIret = .sysret → cs = code64) ∧
      buildFrame c t₁ s sig si (resumeRegs t₁ retval nr sig) (t₁.retIret ≠ .sysret) cs userData =
      some (t₂, s', t'.user.rip) := by
  rcases hpick : pickSignal 65 t with ⟨t₀, picked⟩
  have h₀ : SameButQueue t t₀ := by simpa [hpick] using pickSignal_same 65 t
  simp only [signalDeliverPending, hpick] at h
  cases picked with
  | none => cases h
  | some sig' =>
    dsimp only at h
    split at h
    · cases h
    next hk =>
    split at h
    · cases h
    next t₂ s₂ rip hb =>
      obtain ⟨rfl, rfl, rfl⟩ : sig' = sig ∧ s₂ = s' ∧ rip = t'.user.rip := by
        split at h
        · cases h
          exact ⟨rfl, rfl, rfl⟩
        · cases h
          exact ⟨rfl, rfl, rfl⟩
      obtain ⟨_, _, rfl⟩ := h₀
      refine ⟨_, _, _, t₂, taken_same hpick, fun h0 => hk (.inr h0), fun hs => if_neg ?_, hb⟩
      obtain ⟨_, _, heq⟩ := taken_same hpick
      rw [heq]
      exact fun hc => by cases hs.symm.trans hc

theorem deliver_cases (h : deliver c t s src = some (sig, s')) :
    ∃ t₁ si cs ss t' rip, SameButQueue t t₁ ∧
      (src.whole t = false → cs ≠ code32) ∧
      buildFrame c t₁ s sig si (interrupted t sig src) (src.whole t) cs ss =
      some (t', s', rip) := by
  cases src with
  | syscall retval nr =>
    rw [deliver] at h
    split at h
    next he =>
      cases h
      obtain ⟨t₁, si, cs, t', ⟨_, _, rfl⟩, -, hcs, hb⟩ := entered_cases he
      refine ⟨_, si, cs, userData, t', _, ⟨_, _, rfl⟩, fun hw => ?_, hb⟩
      have hs : t.retIret = .sysret := by simpa [Source.whole] using hw
      rw [hcs hs]
      decide
    · cases h
  | interrupt f =>
    rcases hpick : pickSignal 65 t with ⟨t₀, picked⟩
    simp only [deliver, signalIrqReturn, hpick] at h
    cases picked with
    | none => cases h
    | some sig' =>
      by_cases hk : sig' = sigKill ∨ t₀.handler sig' = 0
      · simp only [if_pos hk, reduceCtorEq] at h
      simp only [if_neg hk] at h
      cases hb : buildFrame c (takeSignal t₀ sig').1 s sig'
        (takeSignal t₀ sig').2 f.regs true f.cs f.ss with
      | none => simp only [hb, reduceCtorEq] at h
      | some p =>
        simp only [hb] at h
        obtain ⟨rfl, rfl⟩ : sig' = sig ∧ p.2.1 = s' := by
          cases ha : (takeSignal t₀ sig').1.abi <;> simpa [ha] using h
        exact ⟨_, _, f.cs, f.ss, p.1, p.2.2, taken_same hpick, (fun hw => by cases hw), hb⟩

/-! What the interrupted program gets back. -/

/-- The registers, and the flags a program can change. The instruction of a system call has taken
`rcx` and `r11` for the counter and the flags, and takes them again when the call is repeated. -/
structure Resumes (t : Task) (sig : Nat) (src : Source) (r u : Regs) : Prop where
  regs : u = { r with rcx := u.rcx, r11 := u.r11, rflags := userFlags r.rflags }
  flags : u.rflags &&& userModifiable = r.rflags &&& userModifiable
  kept : src.whole t = true → u.rcx = r.rcx ∧ u.r11 = r.r11
  clobbered : src.whole t = false → src.restarts t sig = false → u.rcx = r.rcx ∧
    userFlags u.r11 = userFlags r.r11

/-- The matching return gives back the registers and the mask; the frame has kept off the red
zone, and within the stack it was put on. -/
structure Transparent (c : Fpu) (malloc nt : Bool) (t : Task) (sig : Nat) (src : Source) (t₂ : Task)
    (s₂ : Space) (ucp : Word) : Prop where
  resumed : ∃ t₃ rax u, sigreturn c malloc t₂ s₂ ucp = some (t₃, rax) ∧
    userReturn nt t₃ rax = .user u ∧
    Resumes t sig src (interrupted t sig src) u ∧ t₃.blocked = t.resumeMask
  redZone : ∀ x, x < (interrupted t sig src).rsp.toNat →
    (interrupted t sig src).rsp.toNat ≤ x + 128 →
    ¬((t.place c sig (interrupted t sig src).rsp).sp.toNat ≤ x ∧
    x < (t.place c sig (interrupted t sig src).rsp).stop)
  alternate : t.useAlt sig (interrupted t sig src).rsp = true ∨
    t.onAltstack (interrupted t sig src).rsp = true →
    t.ssSp.toNat ≤ (t.place c sig (interrupted t sig src).rsp).sp.toNat ∧
      (t.place c sig (interrupted t sig src).rsp).stop ≤ t.ssSp.toNat + t.ssSize.toNat
  below : t.useAlt sig (interrupted t sig src).rsp = false →
    (t.place c sig (interrupted t sig src).rsp).stop ≤ (interrupted t sig src).rsp.toNat

/-- What it takes: a counter the return path accepts, a stack pointer below the kernel's half, NT
clear in the interrupted flags and, for a return by `iretq`, in the processor, a mask without the
signals that cannot be masked, memory to restore the floating-point unit, and room for the frame
on the alternate stack, away from the red zone. -/
structure Resumable (c : Fpu) (malloc nt : Bool) (t : Task) (sig : Nat) (src : Source) : Prop where
  rip_ne : (interrupted t sig src).rip ≠ 0
  rip_lt : (interrupted t sig src).rip.toNat < userTop
  rsp_lt : (interrupted t sig src).rsp.toNat < userTop
  flag : (interrupted t sig src).rflags.getLsbD ntBit = false
  live : t.abi = .linux ∨ src.whole t = true → nt = false
  mask : t.resumeMask &&& unblockable = 0
  fpu : c.xcr0 = true → malloc = true
  room : t.useAlt sig (interrupted t sig src).rsp = true ∨
    t.onAltstack (interrupted t sig src).rsp = true →
    t.ssSp.toNat ≤ (t.place c sig (interrupted t sig src).rsp).sp.toNat
  apart : t.useAlt sig (interrupted t sig src).rsp = true →
    (interrupted t sig src).rsp.toNat ≤ (t.place c sig (interrupted t sig src).rsp).sp.toNat ∨
      (t.place c sig (interrupted t sig src).rsp).stop + 128 ≤ (interrupted t sig src).rsp.toNat

theorem userFlags_idem (w : Word) : userFlags (userFlags w) = userFlags w := by
  simp only [userFlags]
  ext i hi
  grind

theorem userFlags_modifiable_iff (w : Word) :
    userFlags w &&& userModifiable = w &&& userModifiable ↔ w.getLsbD ntBit = false := by
  have hkept : userFlags w &&& userModifiable = w &&& 0x240DD5#64 := by
    rw [userFlags, and_or_distrib_right, BitVec.and_assoc]
    exact or_zero
  have hall : userModifiable = 0x240DD5#64 ||| twoPow 64 ntBit := by decide
  rw [hkept, hall, and_or_distrib_left, and_twoPow]
  constructor
  · intro h
    by_contra hn
    rw [if_pos (by simpa using hn)] at h
    have hbit := congrArg (getLsbD · ntBit) h
    simp [ntBit] at hbit
  · intro h
    rw [if_neg (by simp [h]), or_zero]

theorem and_not_eq_self_iff (w : Word) : w &&& ~~~unblockable = w ↔ w &&& unblockable = 0 := by
  constructor
  · intro h
    rw [← h, and_not_unblockable]
  · intro h
    have hsplit : w = w &&& unblockable ||| w &&& ~~~unblockable := by
      rw [← and_or_distrib_left, or_not_self, and_allOnes]
    rw [h] at hsplit
    simpa using hsplit.symm

theorem below_redZone (h : Fits t c sig r.rsp) (hu : t.useAlt sig r.rsp = false) :
    (t.place c sig r.rsp).stop + 128 ≤ r.rsp.toNat := by
  have h1 := h.stop
  have h2 := h.top
  simp only [Task.frameTop, hu, userTop] at h1 h2
  have h3 := toNat_sub_of_lt (w := r.rsp) (n := 128) (by omega) (by simp at h2 ⊢; omega)
  simp at h1 h2 h3
  omega

theorem stop_le_altstack (h : Fits t c sig r.rsp)
    (hu : t.useAlt sig r.rsp = true ∨ t.onAltstack r.rsp = true) :
    (t.place c sig r.rsp).stop ≤ t.ssSp.toNat + t.ssSize.toNat := by
  have hmod : (t.ssSp + t.ssSize).toNat ≤ t.ssSp.toNat + t.ssSize.toNat := by
    exact Nat.mod_le _ _
  cases ha : t.useAlt sig r.rsp with
  | true =>
    have h1 := h.stop
    simp only [Task.frameTop, ha, if_true] at h1
    omega
  | false =>
    have h1 := below_redZone h ha
    have h2 : t.onAltstack r.rsp = true := by simpa [ha] using hu
    simp only [Task.onAltstack, Bool.and_eq_true, decide_eq_true_eq] at h2
    omega

theorem interrupted_clobbered (hw : src.whole t = false) (hn : src.restarts t sig = false) :
    (interrupted t sig src).rcx = (interrupted t sig src).rip ∧
      (interrupted t sig src).r11 = (interrupted t sig src).rflags := by
  cases src with
  | interrupt f => cases hw
  | syscall retval nr =>
    have hret : t.retIret = .sysret := by simpa [Source.whole] using hw
    have hn' : t.restarts retval nr sig = false := hn
    simp [interrupted, resumeRegs, hn', regsFromTask, Saved.regs, hret]

theorem userReturn_zero (h : t.user.rip = 0) : userReturn nt t rax = .zeroRip := if_pos h

theorem userReturn_sysret (h : t.retIret = .sysret) (h0 : t.user.rip ≠ 0)
    (hrip : t.user.rip.toNat < userTop) (hrsp : t.user.rsp.toNat < userTop) :
    userReturn nt t rax = .user (t.user.regs rax t.user.rip (userFlags t.user.r11)) := by
  rw [userReturn, if_neg h0, h]
  simp [(shiftRight_eq_zero_iff _).mpr hrip, (shiftRight_eq_zero_iff _).mpr hrsp]

theorem userReturn_iret (h : t.retIret ≠ .sysret) (h0 : t.user.rip ≠ 0) : userReturn nt t rax =
    if nt then .iretFault else .user (t.user.regs rax t.user.rcx t.user.iretR11) := by
  rw [userReturn, if_neg h0]
  cases hc : t.retIret with
  | sysret => exact absurd hc h
  | iret | compat => rfl

theorem restored_iret (hi : t.abi = .linux ∨ src.whole t = true) : (t.restored t₂ r cs
    (if t.abi = .linux ∨ src.whole t = true then .iret else .sysret)).retIret ≠ .sysret := by
  simp only [Task.restored, if_pos hi]
  split_ifs <;> decide

/-- The restored task goes on where it was interrupted. -/
theorem restored_resumes (t₂ : Task) (cs : BitVec 16) (hcs : src.whole t = false → cs ≠ code32)
    (hr : Resumable c malloc nt t sig src) :
    ∃ u, userReturn nt (t.restored t₂ (interrupted t sig src) cs
        (if t.abi = .linux ∨ src.whole t = true then .iret else .sysret))
          (interrupted t sig src).rax = .user u ∧
      Resumes t sig src (interrupted t sig src) u := by
  generalize hR : t.restored t₂ (interrupted t sig src) cs
    (if t.abi = .linux ∨ src.whole t = true then .iret else .sysret) = t₃
  have hu : t₃.user = (interrupted t sig src).saved := by rw [← hR]; rfl
  have hrip : t₃.user.rip ≠ 0 := by rw [hu]; exact hr.rip_ne
  by_cases hs : t₃.retIret = .sysret
  · have hw : src.whole t = false := by
      rw [← hR] at hs
      simp only [Task.restored] at hs
      split_ifs at hs with h1 h2
      simpa using (not_or.mp h2).2
    refine ⟨_, userReturn_sysret hs hrip (by rw [hu]; exact hr.rip_lt)
      (by rw [hu]; exact hr.rsp_lt), ?_, ?_, ?_, ?_⟩
    · rw [hu]; rfl
    · rw [hu]; exact (userFlags_modifiable_iff _).mpr hr.flag
    · intro h
      simp [hw] at h
    · intro _ hn
      obtain ⟨h1, h2⟩ := interrupted_clobbered hw hn
      rw [hu]
      exact ⟨h1.symm, by rw [h2]; exact userFlags_idem _⟩
  · have hnt : nt = false := by
      rw [← hR] at hs
      simp only [Task.restored] at hs
      refine hr.live ?_
      by_contra hno
      have hw : src.whole t = false := by simpa using (not_or.mp hno).2
      rw [if_neg (hcs hw), if_neg hno] at hs
      exact hs rfl
    refine ⟨_, (userReturn_iret hs hrip).trans (if_neg (by simp [hnt])), ?_, ?_, ?_, ?_⟩
    · rw [hu]; rfl
    · rw [hu]; exact (userFlags_modifiable_iff _).mpr hr.flag
    · intro _
      rw [hu]
      exact ⟨rfl, rfl⟩
    · intro _ _
      rw [hu]
      exact ⟨rfl, rfl⟩

/-- The handler of a Linux task is entered at the address that `SA_RESETHAND` has just cleared,
and the return to address 0 is the kernel's panic. -/
theorem resethand_panics_iff {retval nr a : Word} (habi : t.abi = .linux)
    (h : signalDeliverPending c t s retval nr = .entered sig t' s' a) :
    userReturn nt t' a = .zeroRip ↔ t.flags sig &&& saResethand ≠ 0 := by
  obtain ⟨_, si, cs, t₂, ⟨_, _, rfl⟩, hh, -, hb⟩ := entered_cases h
  obtain ⟨-, -, -, hrip⟩ := buildFrame_cases hb
  have hrip := hrip habi
  simp only [Task.enter] at hrip
  by_cases hf : t.flags sig &&& saResethand ≠ 0
  · rw [if_pos hf, Function.update_self] at hrip
    exact iff_of_true (userReturn_zero hrip) hf
  · rw [if_neg hf] at hrip
    refine iff_of_false ?_ hf
    rw [userReturn, if_neg (hrip ▸ hh)]
    split <;> split_ifs <;> intro h <;> cases h

def segvTask : Task :=
  { Task.plain .native 0 with
    pending := bit sigSegv
    handler := fun _ => 0x5000
    restorer := fun _ => 0x6000 }

def faultAt (rip : Word) : Source :=
  .interrupt ⟨⟨0, 0, 0, 0, 0, 0, 0, 0, 0, 0, 0, 0, 0, 0, 0, 0x20000, rip, 0x202⟩, code64, userData⟩

def blankSpace : Space := ⟨fun _ => 0, fun _ _ _ => true⟩

def onceTask : Task :=
  { segvTask with
    abi := .linux, flags := fun _ => saResethand
    user := { segvTask.user with rsp := 0x20000 } }

theorem resethand_panics_once :
    ∃ t' s' a, signalDeliverPending plainFpu onceTask blankSpace 0 0 = .entered sigSegv t' s' a ∧
    userReturn false t' a = .zeroRip := by
  have hd : (deliver plainFpu onceTask blankSpace (.syscall 0 0)).map fst = some sigSegv := by
    decide +kernel
  rw [deliver] at hd
  split at hd
  next he =>
    cases hd
    exact ⟨_, _, _, he, (resethand_panics_iff rfl he).mpr (by decide)⟩
  · cases hd

def segvDone : Task := { segvTask with user := { segvTask.user with rsp := 0x1fb10 } }

theorem deliver_fault (rip : Word)
    (h : (deliver plainFpu segvTask blankSpace (faultAt rip)).map fst = some sigSegv) :
    ∃ s', deliver plainFpu segvTask blankSpace (faultAt rip) = some (sigSegv, s') ∧
    Returns segvTask (segvTask.place plainFpu sigSegv
    (interrupted segvTask sigSegv (faultAt rip)).rsp) s' segvDone s' := by
  have hsp : (segvTask.place plainFpu sigSegv 0x20000).sp = 0x1fb00 := by decide
  obtain ⟨⟨_, s'⟩, hd, rfl⟩ := Option.map_eq_some_iff.mp h
  obtain ⟨t₁, si, cs, ss, t', rip', -, -, hb⟩ := deliver_cases hd
  obtain ⟨-, -, rfl, -⟩ := buildFrame_cases hb
  refine ⟨_, hd, rfl, ?_, fun _ _ _ => rfl, fun _ _ _ _ => rfl⟩
  exact (congrArg (· + segvTask.frameHead) hsp).symm

end Cervus.Signal
