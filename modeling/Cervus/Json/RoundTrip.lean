import Cervus.Json.Format
import Mathlib.Data.List.TakeWhile
import Mathlib.Data.Nat.Digits.Lemmas

/-! `json_parse` reads back what `json_dump` writes. -/

namespace Cervus.Json

open List

/-! White space. -/

def isWs (c : Byte) : Bool := c == newline || c == space || c == 0x09 || c == 0x0d

variable {c : Byte} {s t ws : Bytes} {ps : Parser}

theorem isWs_iff : isWs c = true ↔ c = newline ∨ c = space ∨ c = 0x09 ∨ c = 0x0d := by
  simp [isWs, or_assoc]

theorem skipWsFrom_rest (rest : Bytes) (pos line lineStart : ℕ) :
    (skipWsFrom rest pos line lineStart).rest = rest.dropWhile isWs := by
  induction rest generalizing pos line lineStart with
  | nil => rfl
  | cons c rest ih =>
    rw [skipWsFrom, dropWhile_cons]
    by_cases h1 : c = newline
    · rw [if_pos h1, if_pos (isWs_iff.mpr (.inl h1)), ih]
    · rw [if_neg h1]
      by_cases h2 : c = space ∨ c = 0x09 ∨ c = 0x0d
      · rw [if_pos h2, if_pos (isWs_iff.mpr (.inr h2)), ih]
      · rw [if_neg h2, if_neg fun h => (isWs_iff.mp h).elim h1 h2]

def Blank (ws : Bytes) : Prop := ∀ c ∈ ws, isWs c = true

def Starts (t : Bytes) : Prop := ∃ c t', t = c :: t' ∧ isWs c = false ∧ c ≠ rbracket ∧ c ≠ rbrace

theorem dropWhile_blank (hws : Blank ws) : (ws ++ t).dropWhile isWs = t.dropWhile isWs :=
  dropWhile_append_of_pos hws

theorem skipWs_rest (hws : Blank ws) (hc : isWs c = false)
    (h : ps.rest = ws ++ c :: t) : (skipWs ps).rest = c :: t := by
  rw [skipWs, skipWsFrom_rest, h, dropWhile_blank hws, dropWhile_cons, hc]
  rfl

theorem blank_nil : Blank [] := fun _ h => absurd h not_mem_nil

theorem blank_sinkIndent (indent : ℤ) (depth : ℕ) : Blank (sinkIndent indent depth) := by
  intro c hc
  rw [sinkIndent] at hc
  split_ifs at hc
  · cases hc
  · rcases mem_cons.mp hc with rfl | hc
    · rfl
    · rw [eq_of_mem_replicate hc]
      rfl

@[simp]
theorem rest_skip (ps : Parser) (n : ℕ) : (ps.skip n).rest = ps.rest.drop n := rfl

/-! Strings. -/

theorem eq_ofNat_toNat (c : Byte) : c = UInt8.ofNat c.toNat := by simp

theorem unicode_escape (h : c < 0x20) (tail : Bytes) :
    unicode (0x30 :: 0x30 :: hexDigit (c / 16) :: hexDigit (c % 16) :: tail) =
      some (c.toNat, 4) := by
  have hdigits : ∀ n < 32, hexValue (hexDigit (UInt8.ofNat n / 16)) = some (n / 16) ∧
      hexValue (hexDigit (UInt8.ofNat n % 16)) = some (n % 16) := by decide
  have hlt : c.toNat < 32 := h
  obtain ⟨h1, h2⟩ := hdigits c.toNat hlt
  rw [← eq_ofNat_toNat] at h1 h2
  have h0 : hexValue 0x30 = some 0 := rfl
  have h4 : hex4 (0x30 :: 0x30 :: hexDigit (c / 16) :: hexDigit (c % 16) :: tail) =
      some c.toNat := by
    rw [hex4, h1, h2, h0]
    simp only [Option.bind_eq_bind, Option.bind_some, Option.pure_def, Option.some.injEq]
    omega
  rw [unicode, h4]
  dsimp only
  rw [if_neg (by omega)]

theorem utf8Put_toNat (h : c < 0x20) : utf8Put c.toNat = [c] := by
  have hlt : c.toNat < 32 := h
  rw [utf8Put, if_pos (by omega), ← eq_ofNat_toNat]

theorem escape_cases (c : Byte) : (escape c = [c] ∧ c ≠ quote ∧ c ≠ newline ∧ c ≠ backslash) ∨
      (∃ e, escape c = [backslash, e] ∧ e ≠ 0x75 ∧ letter e = some c) ∨
      (escape c = [backslash, 0x75, 0x30, 0x30, hexDigit (c / 16), hexDigit (c % 16)] ∧
      c < 0x20) := by
  rw [escape]
  split_ifs with h1 h2 h3 h4 h5 h6 h7 h8
  · exact .inr (.inl ⟨quote, rfl, by decide, by rw [h1]; rfl⟩)
  · exact .inr (.inl ⟨backslash, rfl, by decide, by rw [h2]; rfl⟩)
  · exact .inr (.inl ⟨_, rfl, by decide, h3 ▸ rfl⟩)
  · exact .inr (.inl ⟨_, rfl, by decide, h4 ▸ rfl⟩)
  · exact .inr (.inl ⟨_, rfl, by decide, h5 ▸ rfl⟩)
  · exact .inr (.inl ⟨_, rfl, by decide, h6 ▸ rfl⟩)
  · exact .inr (.inl ⟨_, rfl, by decide, h7 ▸ rfl⟩)
  · exact .inr (.inr ⟨rfl, h8⟩)
  · exact .inl ⟨rfl, h1, h5, h2⟩

variable {tail : Bytes} {n : ℤ}

theorem stringLoop_escape (h : ps.rest = escape c ++ tail) (k : ℕ) (out : Bytes) :
    ∃ ps', stringLoop (k + 1) out ps = stringLoop k (out ++ [c]) ps' ∧ ps'.rest = tail := by
  have hskip : (ps.skip (escape c).length).rest = tail := by rw [rest_skip, h, drop_left]
  refine ⟨_, ?_, hskip⟩
  rw [stringLoop, h]
  have hb : backslash ≠ quote ∧ backslash ≠ newline := by decide
  obtain ⟨he, hq, hn, hbs⟩ | ⟨e, he, hu, hl⟩ | ⟨he, hlt⟩ := escape_cases c
  · rw [he, singleton_append]
    dsimp only
    rw [if_neg hq, if_neg hn, if_pos hbs]
    rfl
  · rw [he, cons_append, singleton_append]
    dsimp only
    rw [if_neg hb.1, if_neg hb.2, if_neg (not_not.mpr rfl), if_neg hu, hl]
    rfl
  · rw [he]
    simp only [cons_append, nil_append]
    rw [if_neg hb.1, if_neg hb.2, if_neg (not_not.mpr rfl), if_pos trivial, unicode_escape hlt]
    dsimp only
    rw [utf8Put_toNat hlt]
    rfl

theorem stringLoop_read (h : ps.rest = s.flatMap escape ++ quote :: tail) {k : ℕ}
    (hk : s.length < k) (out : Bytes) :
    ∃ ps', stringLoop k out ps = .ok (cString (out ++ s), ps') ∧ ps'.rest = tail := by
  induction s generalizing ps k out with
  | nil =>
    obtain ⟨k, rfl⟩ := Nat.exists_eq_succ_of_ne_zero (show k ≠ 0 by omega)
    refine ⟨ps.skip 1, ?_, by rw [rest_skip, h]; rfl⟩
    rw [stringLoop, h, append_nil]
    rfl
  | cons c s ih =>
    obtain ⟨k, rfl⟩ := Nat.exists_eq_succ_of_ne_zero (show k ≠ 0 by omega)
    rw [flatMap_cons, append_assoc] at h
    obtain ⟨ps', hstep, hrest⟩ := stringLoop_escape h k out
    obtain ⟨ps'', hread, htail⟩ := ih hrest (Nat.lt_of_succ_lt_succ hk) (out ++ [c])
    refine ⟨ps'', ?_, htail⟩
    rw [hstep, hread, append_assoc]
    rfl

theorem cString_eq (h : 0 ∉ s) : cString s = s := by
  have hne : ∀ c ∈ s, decide (c ≠ 0) = true :=
    fun c hc => decide_eq_true (ne_of_mem_of_not_mem hc h)
  exact takeWhile_eq_self_iff.mpr hne

theorem length_le_flatMap_escape (s : Bytes) : s.length ≤ (s.flatMap escape).length := by
  induction s with
  | nil => rfl
  | cons c s ih =>
    have hpos : 0 < (escape c).length := by
      obtain ⟨he, -⟩ | ⟨e, he, -⟩ | ⟨he, -⟩ := escape_cases c <;> rw [he] <;> exact Nat.succ_pos _
    rw [flatMap_cons, length_append, length_cons]
    omega

theorem parseStringRaw_quoted (hs : 0 ∉ s) (h : ps.rest = sinkQuoted s ++ tail) :
    ∃ ps', parseStringRaw ps = .ok (s, ps') ∧ ps'.rest = tail := by
  have hskip : (ps.skip 1).rest = s.flatMap escape ++ quote :: tail := by
    rw [rest_skip, h, sinkQuoted, cString_eq hs]
    simp
  have hlen : s.length < ps.rest.length + 1 := by
    have := length_le_flatMap_escape s
    have := congrArg List.length hskip
    simp only [rest_skip, length_drop, length_append] at this
    omega
  obtain ⟨ps', hread, htail⟩ := stringLoop_read hskip hlen []
  refine ⟨ps', ?_, htail⟩
  rw [parseStringRaw, hread, nil_append, cString_eq hs]

/-! Numbers. -/

def Ends (tail : Bytes) : Prop :=
  ∀ c ∈ tail.head?, isDigit c = false ∧ c ≠ dot ∧ c ≠ 0x65 ∧ c ≠ 0x45

theorem digit_byte {d : ℕ} (h : d < 10) :
    isDigit (0x30 + UInt8.ofNat d) = true ∧ (0x30 + UInt8.ofNat d - 0x30).toNat = d := by
  interval_cases d <;> decide

theorem isDigit_digitBytes (n : ℕ) : ∀ c ∈ digitBytes n, isDigit c = true := by
  intro c hc
  rw [digitBytes] at hc
  split_ifs at hc
  · rw [mem_singleton.mp hc]
    rfl
  · obtain ⟨d, hd, rfl⟩ := mem_map.mp hc
    exact (digit_byte (Nat.digits_lt_base (by omega) (mem_reverse.mp hd))).1

theorem digitBytes_ne_nil (n : ℕ) : digitBytes n ≠ [] := by
  rw [digitBytes]
  split_ifs with h
  · exact cons_ne_nil _ _
  · simpa using Nat.digits_ne_nil_iff_ne_zero.mpr h

theorem digitsValue_digitBytes (n : ℕ) : digitsValue (digitBytes n) = n := by
  rw [digitBytes]
  split_ifs with h
  · rw [h]
    rfl
  · have hlt : ∀ d ∈ Nat.digits 10 n, d < 10 := fun d hd => Nat.digits_lt_base (by omega) hd
    rw [digitsValue, foldl_map, foldl_reverse]
    conv_rhs => rw [← Nat.ofDigits_digits 10 n, Nat.ofDigits_eq_foldr]
    refine foldr_ext _ _ _ fun d hd m => ?_
    rw [(digit_byte (hlt d hd)).2]
    exact add_comm _ _

theorem length_digitBytes {n : ℕ} (h : n < 10 ^ 15) : (digitBytes n).length ≤ 15 := by
  rw [digitBytes]
  split_ifs with h0
  · decide
  · rw [length_map, length_reverse]
    exact (Nat.digits_length_le_iff (by omega) n).mpr h

theorem digitsLen_append {ds : Bytes} (hds : ∀ c ∈ ds, isDigit c = true) (htail : Ends tail) :
    digitsLen (ds ++ tail) = ds.length := by
  rw [digitsLen, takeWhile_append_of_pos hds]
  cases tail with
  | nil => simp
  | cons c tail => rw [takeWhile_cons_of_neg (by simp [(htail c rfl).1]), append_nil]

theorem ends_nil : Ends [] := fun _ h => by cases h

theorem fractionLen_eq (h : Ends tail) : fractionLen tail = 0 := by
  cases tail with
  | nil => rfl
  | cons c tail => rw [fractionLen, if_neg (h c rfl).2.1]

theorem exponentLen_eq (h : Ends tail) : exponentLen tail = 0 := by
  cases tail with
  | nil => rfl
  | cons c tail =>
    obtain ⟨-, -, h1, h2⟩ := h c rfl
    rw [exponentLen, if_neg (not_or.mpr ⟨h1, h2⟩)]

theorem isSign_of_isDigit (h : isDigit c = true) : isSign c = false := by
  have h1 : c ≠ minus := fun e => by rw [e] at h; cases h
  have h2 : c ≠ plus := fun e => by rw [e] at h; cases h
  simp [isSign, h1, h2]

theorem printLong_sign (n : ℤ) :
    ∃ sign, printLong n = sign ++ digitBytes n.natAbs ∧ sign.length ≤ 1 ∧
      ((printLong n).headD plus = minus ↔ n < 0) ∧
      ∀ tail, signLen (printLong n ++ tail) = sign.length := by
  rw [printLong]
  split_ifs with hn
  · exact ⟨[minus], rfl, le_rfl, iff_of_true rfl hn, fun _ => rfl⟩
  · obtain ⟨c, ds, hds⟩ := exists_cons_of_ne_nil (digitBytes_ne_nil n.natAbs)
    have hc : isSign c = false := isSign_of_isDigit
      (isDigit_digitBytes n.natAbs c (by rw [hds]; exact .head _))
    refine ⟨[], rfl, Nat.zero_le _, iff_of_false ?_ hn, fun tail => ?_⟩
    · rw [hds, headD_cons]
      rintro rfl
      cases hc
    · rw [hds, signLen, cons_append, take_succ_cons, take_zero, any_cons, hc]
      rfl

theorem strtod_printLong (h : n.natAbs < 10 ^ 15) : strtod (printLong n) = .finite n := by
  obtain ⟨sign, htext, -, hneg, hsign⟩ := printLong_sign n
  have hs : signLen (printLong n) = sign.length := by simpa using hsign []
  have hd : (printLong n).drop sign.length = digitBytes n.natAbs := by rw [htext, drop_left]
  have hl : digitsLen (digitBytes n.natAbs) = (digitBytes n.natAbs).length := by
    simpa using digitsLen_append (isDigit_digitBytes n.natAbs) ends_nil
  have hq : (if (printLong n).headD plus = minus then -(n.natAbs : ℚ) else n.natAbs) = n := by
    simp only [hneg]
    split_ifs with h0
    · rw [← Int.cast_natCast, Int.natCast_natAbs, abs_of_neg h0]
      push_cast
      ring
    · rw [← Int.cast_natCast, Int.natCast_natAbs, abs_of_nonneg (by omega)]
  rw [strtod]
  simp only [hs, hd, hl, take_length, drop_length, fractionLen, exponentLen, take_nil, drop_nil,
    append_nil, digitsValue_digitBytes]
  have hexp : (if ([] : Bytes).headD plus = minus then -((digitsValue [] : ℕ) : ℤ)
    else digitsValue []) - ([] : Bytes).length = 0 := rfl
  rw [hexp, zpow_zero, mul_one, hq]
  exact Binary64.round_intCast (h.trans (by norm_num))

theorem parseNumber_printLong (h : n.natAbs < 10 ^ 15) (htail : Ends tail)
    (hps : ps.rest = printLong n ++ tail) :
    ∃ ps', parseNumber ps = .ok (.number (.finite n), ps') ∧ ps'.rest = tail := by
  obtain ⟨sign, htext, hone, -, hsign⟩ := printLong_sign n
  have hd : (printLong n ++ tail).drop sign.length = digitBytes n.natAbs ++ tail := by
    rw [htext, append_assoc, drop_left]
  have hlen : sign.length + (digitBytes n.natAbs).length = (printLong n).length := by
    rw [htext, length_append]
  have hshort := length_digitBytes h
  have hpos := length_pos_iff.mpr (digitBytes_ne_nil n.natAbs)
  refine ⟨ps.skip (printLong n).length, ?_, by rw [rest_skip, hps, drop_left]⟩
  rw [parseNumber]
  simp only [hps, hsign, hd, digitsLen_append (isDigit_digitBytes n.natAbs) htail, hlen, drop_left,
    fractionLen_eq htail, exponentLen_eq htail, add_zero]
  rw [if_neg (by omega), min_eq_left (by omega), take_left, strtod_printLong h]

theorem sinkNumber_finite (h : n.natAbs < 10 ^ 15) (printG : Binary64 → Bytes) :
    sinkNumber printG (.finite n) = printLong n := by
  have hlong : toLong (.finite n) = n := by
    rw [toLong]
    simp only [Rat.num_intCast, Rat.den_intCast, Nat.cast_one, Int.tdiv_one]
    rw [if_pos (by omega)]
  have hbelow : below1e15 (.finite n) = true := by
    have h1 : (n : ℚ) < 10 ^ 15 := by exact_mod_cast (show n < 10 ^ 15 by omega)
    have h2 : -10 ^ 15 < (n : ℚ) := by exact_mod_cast (show -10 ^ 15 < n by omega)
    simp [below1e15, h1, h2]
  rw [sinkNumber, hlong, Binary64.round_intCast (h.trans (by norm_num)), if_pos ⟨rfl, hbelow⟩]

/-! Lists. -/

def Reads {α : Type} (p : Parse α) (text : Bytes) (a : α) : Prop :=
  ∀ ps ws tail, Blank ws → Ends tail → ps.rest = ws ++ text ++ tail → ∃ ps', p ps = .ok (a, ps') ∧
    ps'.rest = tail

theorem ends_cons (h : isDigit c = false ∧ c ≠ dot ∧ c ≠ 0x65 ∧ c ≠ 0x45) (tail : Bytes) :
    Ends (c :: tail) := by
  rintro _ ⟨⟩
  exact h

theorem ends_blank (hws : Blank ws) (h : Ends tail) : Ends (ws ++ tail) := by
  cases ws with
  | nil => exact h
  | cons c ws =>
    refine ends_cons ?_ _
    rcases isWs_iff.mp (hws c (.head _)) with rfl | rfl | rfl | rfl <;> decide

section

variable {α : Type} {element : Parse α} {afterComma : Parser → Parser} {close : Byte}
    {build : List α → Value} {msg : String}
  {text : α → Bytes} {indent outdent : Bytes}

def listTail (text : α → Bytes) (indent outdent : Bytes) (close : Byte) (as : List α)
    (tail : Bytes) : Bytes :=
  as.flatMap (fun a => comma :: indent ++ text a) ++ outdent ++ close :: tail

theorem ends_listTail (hout : Blank outdent) (hclose : ∀ tail, Ends (close :: tail)) (as : List α)
    (tail : Bytes) :
    Ends (listTail text indent outdent close as tail) := by
  cases as with
  | nil => exact ends_blank hout (hclose tail)
  | cons a as => exact ends_cons (by decide) _

variable {ps ps' : Parser}

theorem listLoop_comma {a : α} {t : Bytes} (hread : element ps = .ok (a, ps'))
    (hps : (skipWs ps').rest = comma :: t) (k : ℕ) (acc : List α) :
    listLoop element afterComma close build msg (k + 1) acc ps =
      listLoop element afterComma close build msg k (acc ++ [a])
        (afterComma ((skipWs ps').skip 1)) := by
  rw [listLoop, hread]
  exact if_pos (by rw [hps]; rfl)

theorem listLoop_close {a : α} {t : Bytes} (hread : element ps = .ok (a, ps'))
    (hps : (skipWs ps').rest = close :: t) (hclose : close ≠ comma) (k : ℕ) (acc : List α) :
    listLoop element afterComma close build msg (k + 1) acc ps =
      .ok (build (acc ++ [a]), (skipWs ps').skip 1) := by
  rw [listLoop, hread]
  refine (if_neg ?_).trans (if_pos (by rw [hps]; rfl))
  rw [hps]
  exact fun h => hclose (Option.some.inj h)

structure Listing (element : Parse α) (text : α → Bytes) (afterComma : Parser → Parser)
    (indent outdent : Bytes) (close : Byte) :
    Prop where
  indents : Blank indent
  outdents : Blank outdent
  ends : ∀ tail, Ends (close :: tail)
  notBlank : isWs close = false
  notComma : close ≠ comma
  bracket : close = rbracket ∨ close = rbrace
  after : ∀ ps ws t, Blank ws → Starts t → ps.rest = ws ++ t → ∃ ws', Blank ws' ∧
    (afterComma ps).rest = ws' ++ t

/-- The elements of a printed list are read one after the other. -/
theorem listLoop_read (L : Listing element text afterComma indent outdent close) {as : List α}
    {a : α} {ws tail : Bytes} {k : ℕ}
    (hreads : ∀ b ∈ a :: as, Reads element (text b) b ∧ Starts (text b)) (hws : Blank ws)
    (hk : as.length < k) (h : ps.rest = ws ++ text a ++ listTail text indent outdent close as tail)
    (acc : List α) :
    ∃ ps', listLoop element afterComma close build msg k acc ps =
      .ok (build (acc ++ a :: as), ps') ∧ ps'.rest = tail := by
  obtain ⟨k, rfl⟩ := Nat.exists_eq_succ_of_ne_zero (show k ≠ 0 by omega)
  obtain ⟨ps', hread, hrest⟩ := (hreads a (.head _)).1 ps ws _ hws
    (ends_listTail L.outdents L.ends as tail) h
  induction as generalizing a ws ps ps' k acc with
  | nil =>
    have hsk : (skipWs ps').rest = close :: tail := skipWs_rest L.outdents L.notBlank hrest
    exact ⟨_, listLoop_close hread hsk L.notComma k acc, by rw [rest_skip, hsk]; rfl⟩
  | cons b as ih =>
    have hsk : (skipWs ps').rest = comma :: (indent ++ text b ++
        listTail text indent outdent close as tail) := by
      refine skipWs_rest blank_nil (by decide) ?_
      rw [hrest, listTail, listTail]
      simp
    obtain ⟨hb, c, t, ht, hc⟩ := hreads b (.tail _ (.head _))
    obtain ⟨ws', hws', hps'⟩ := L.after ((skipWs ps').skip 1) indent
      (text b ++ listTail text indent outdent close as tail)
      L.indents ⟨c, _, by rw [ht]; rfl, hc⟩ (by rw [rest_skip, hsk, append_assoc]; rfl)
    obtain ⟨k, rfl⟩ := Nat.exists_eq_succ_of_ne_zero (show k ≠ 0 by rintro rfl; simp at hk)
    rw [← append_assoc] at hps'
    obtain ⟨ps'', hread', hrest'⟩ := hb _ ws' _ hws' (ends_listTail L.outdents L.ends as tail) hps'
    obtain ⟨ps₃, hloop, hdone⟩ := ih (fun d hd => hreads d (.tail _ hd)) hws' hps' (acc ++ [a]) k
      (by simpa using hk) ps'' hread' hrest'
    refine ⟨ps₃, ?_, hdone⟩
    rw [Nat.succ_eq_add_one, listLoop_comma hread hsk]
    simpa using hloop

def listText (text : α → Bytes) (indent outdent : Bytes) (close : Byte) (tail : Bytes) :
    List α → Bytes
  | [] => close :: tail
  | a :: as => indent ++ text a ++ listTail text indent outdent close as tail

theorem length_le_listTail (as : List α) (tail : Bytes) :
    as.length ≤ (listTail text indent outdent close as tail).length := by
  induction as with
  | nil => exact Nat.zero_le _
  | cons a as ih =>
    simp only [listTail, flatMap_cons, length_append, length_cons] at ih ⊢
    omega

/-- A printed list is read back. -/
theorem parseList_read (L : Listing element text afterComma indent outdent close) {as : List α}
    {tail : Bytes} (hreads : ∀ a ∈ as, Reads element (text a) a ∧ Starts (text a))
    (h : (ps.skip 1).rest = listText text indent outdent close tail as) :
    ∃ ps', parseList element afterComma close build msg ps = .ok (build as, ps') ∧
      ps'.rest = tail := by
  cases as with
  | nil =>
    have hsk : (skipWs (ps.skip 1)).rest = close :: tail := skipWs_rest blank_nil L.notBlank h
    refine ⟨(skipWs (ps.skip 1)).skip 1, ?_, by rw [rest_skip, hsk]; rfl⟩
    exact if_pos (by rw [hsk]; rfl)
  | cons a as =>
    obtain ⟨c, t, ht, hc, hne⟩ := (hreads a (.head _)).2
    have hsk : (skipWs (ps.skip 1)).rest = c ::
        (t ++ listTail text indent outdent close as tail) := by
      refine skipWs_rest L.indents hc ?_
      rw [h, listText, ht]
      simp
    have hrest : (skipWs (ps.skip 1)).rest = [] ++ text a ++
        listTail text indent outdent close as tail := by
      rw [hsk, ht]
      rfl
    have hlen : as.length < (skipWs (ps.skip 1)).rest.length + 1 := by
      have : as.length ≤ (listTail text indent outdent close as tail).length :=
        length_le_listTail as tail
      rw [hsk, length_cons, length_append]
      omega
    obtain ⟨ps', hloop, hdone⟩ : ∃ ps', listLoop element afterComma close build msg _ [] _ =
      .ok (build (a :: as), ps') ∧
        ps'.rest = tail := listLoop_read L hreads blank_nil hlen hrest []
    refine ⟨ps', ?_, hdone⟩
    refine (if_neg ?_).trans hloop
    rw [hsk]
    intro hclose
    cases hclose
    rcases L.bracket with hb | hb
    · exact hne.1 hb
    · exact hne.2 hb

end

/-! Values. -/

/-- Small integers, and strings without a zero byte. -/
inductive Plain : Value → Prop where
  | null : Plain .null
  | bool (b : Bool) : Plain (.bool b)
  | number {n : ℤ} (h : n.natAbs < 10 ^ 15) : Plain (.number (.finite n))
  | string {s : Bytes} (h : 0 ∉ s) : Plain (.string s)
  | array {items : List Value} (h : ∀ v ∈ items, Plain v) : Plain (.array items)
  | object {members : List (Bytes × Value)} (hkey : ∀ m ∈ members, 0 ∉ m.1)
    (h : ∀ m ∈ members, Plain m.2) :
    Plain (.object members)

mutual

def depth : Value → ℕ
  | .array items => depthItems items + 1
  | .object members => depthMembers members + 1
  | _ => 0

def depthItems : List Value → ℕ
  | [] => 0
  | v :: items => max (depth v) (depthItems items)

def depthMembers : List (Bytes × Value) → ℕ
  | [] => 0
  | (_, v) :: members => max (depth v) (depthMembers members)

end

theorem depth_le_depthItems {items : List Value} {v : Value} (h : v ∈ items) :
    depth v ≤ depthItems items := by
  induction items with
  | nil => cases h
  | cons w items ih =>
    rcases mem_cons.mp h with rfl | h
    · exact le_max_left _ _
    · exact (ih h).trans (le_max_right _ _)

theorem depth_le_depthMembers {members : List (Bytes × Value)} {m : Bytes × Value}
    (h : m ∈ members) :
    depth m.2 ≤ depthMembers members := by
  induction members with
  | nil => cases h
  | cons w members ih =>
    rcases mem_cons.mp h with rfl | h
    · exact le_max_left _ _
    · exact (ih h).trans (le_max_right _ _)

section

variable {printG : Binary64 → Bytes} {indent : ℤ}

def memberText (printG : Binary64 → Bytes) (indent : ℤ) (depth : ℕ) (m : Bytes × Value) : Bytes :=
  sinkQuoted m.1 ++ (if 0 < indent then [colon, space] else [colon]) ++
    dumpValue printG indent depth m.2

theorem dumpItems_eq (depth : ℕ) (items : List Value) : dumpItems printG indent depth items =
      items.flatMap fun v => comma :: sinkIndent indent (depth + 1) ++
        dumpValue printG indent (depth + 1) v := by
  induction items with
  | nil => rw [dumpItems]; rfl
  | cons v items ih => rw [dumpItems, ih, flatMap_cons]

theorem dumpMembers_eq (depth : ℕ) (members : List (Bytes × Value)) :
    dumpMembers printG indent depth members =
      members.flatMap fun m => comma :: sinkIndent indent (depth + 1) ++
        memberText printG indent (depth + 1) m := by
  induction members with
  | nil => rw [dumpMembers]; rfl
  | cons m members ih =>
    rw [dumpMembers, ih, flatMap_cons, memberText]
    simp

abbrev elements (indent : ℤ) (depth : ℕ) {α : Type} (text : α → Bytes) (close : Byte) (tail : Bytes)
    (as : List α) : Bytes :=
  listText text (sinkIndent indent (depth + 1)) (sinkIndent indent depth) close tail as

theorem dumpValue_array (depth : ℕ) (items : List Value) (tail : Bytes) :
    dumpValue printG indent depth (.array items) ++ tail =
      lbracket :: elements indent depth (dumpValue printG indent (depth + 1)) rbracket tail
        items := by
  cases items with
  | nil => rw [dumpValue]; rfl
  | cons v items =>
    rw [dumpValue, dumpItems_eq, elements, listText, listTail]
    simp

theorem dumpValue_object (depth : ℕ) (members : List (Bytes × Value)) (tail : Bytes) :
    dumpValue printG indent depth (.object members) ++ tail =
      lbrace :: elements indent depth (memberText printG indent (depth + 1)) rbrace tail
        members := by
  cases members with
  | nil => rw [dumpValue]; rfl
  | cons m members =>
    rw [dumpValue, dumpMembers_eq, elements, listText, listTail, memberText]
    simp

theorem ne_of_number {c d : Byte} (hc : (isSign c || isDigit c) = true)
    (hd : d ∈ [newline, space, 0x09, 0x0d, rbracket, rbrace, lbrace, lbracket, quote, 0x74, 0x66,
    0x6e]) :
    c ≠ d := by
  rintro rfl
  have hnone : ∀ d ∈ [newline, space, 0x09, 0x0d, rbracket, rbrace, lbrace, lbracket, quote, 0x74,
    0x66, 0x6e],
      (isSign d || isDigit d) = false := by decide +kernel
  rw [hnone c hd] at hc
  cases hc

theorem printLong_head (n : ℤ) : ∃ c t, printLong n = c :: t ∧ (isSign c || isDigit c) = true := by
  rw [printLong]
  split_ifs
  · exact ⟨minus, _, rfl, rfl⟩
  · obtain ⟨c, ds, hds⟩ := exists_cons_of_ne_nil (digitBytes_ne_nil n.natAbs)
    exact ⟨c, ds, hds,
      by rw [isDigit_digitBytes n.natAbs c (by rw [hds]; exact .head _), Bool.or_true]⟩

theorem starts_printLong (n : ℤ) : Starts (printLong n) := by
  obtain ⟨c, t, h, hc⟩ := printLong_head n
  refine ⟨c, t, h, ?_, ne_of_number hc (by decide), ne_of_number hc (by decide)⟩
  rw [Bool.eq_false_iff]
  intro hws
  rcases isWs_iff.mp hws with h | h | h | h
  · exact ne_of_number hc (by decide) h
  · exact ne_of_number hc (by decide) h
  · exact ne_of_number hc (by decide) h
  · exact ne_of_number hc (by decide) h

theorem starts_dumpValue {v : Value} (h : Plain v) (depth : ℕ) :
    Starts (dumpValue printG indent depth v) := by
  cases h with
  | null => exact ⟨_, _, by rw [dumpValue]; rfl, by decide⟩
  | bool b =>
    cases b
    · exact ⟨_, _, rfl, by decide⟩
    · exact ⟨_, _, rfl, by decide⟩
  | number h =>
    rw [dumpValue, sinkNumber_finite h]
    exact starts_printLong _
  | string h => exact ⟨quote, _, by rw [dumpValue]; rfl, by decide⟩
  | array h => exact ⟨lbracket, _, by simpa using dumpValue_array depth _ [], by decide⟩
  | object hkey h => exact ⟨lbrace, _, by simpa using dumpValue_object depth _ [], by decide⟩

theorem listing_array (p : Parse Value) (depth : ℕ) :
    Listing p (dumpValue printG indent (depth + 1)) skipWs (sinkIndent indent (depth + 1))
      (sinkIndent indent depth) rbracket where
  indents := blank_sinkIndent _ _
  outdents := blank_sinkIndent _ _
  ends := ends_cons (by decide)
  notBlank := by decide
  notComma := by decide
  bracket := .inl rfl
  after := by
    rintro ps ws _ hws ⟨c, t, rfl, hc, -⟩ h
    exact ⟨[], blank_nil, skipWs_rest hws hc h⟩

theorem listing_object (p : Parse (Bytes × Value)) (depth : ℕ) :
    Listing p (memberText printG indent (depth + 1)) id (sinkIndent indent (depth + 1))
      (sinkIndent indent depth) rbrace where
  indents := blank_sinkIndent _ _
  outdents := blank_sinkIndent _ _
  ends := ends_cons (by decide)
  notBlank := by decide
  notComma := by decide
  bracket := .inr rfl
  after _ ws _ hws _ h := ⟨ws, hws, h⟩

theorem starts_memberText (depth : ℕ) (m : Bytes × Value) :
    Starts (memberText printG indent depth m) :=
  ⟨quote, _, rfl, by decide⟩

theorem parseMember_read {p : Parse Value} {depth : ℕ} {m : Bytes × Value} (hkey : 0 ∉ m.1)
    (hp : Reads p (dumpValue printG indent depth m.2) m.2) :
    Reads (parseMember p) (memberText printG indent depth m) m := by
  intro ps ws tail hws htail hps
  have hsep : ∃ ws', Blank ws' ∧ (if 0 < indent then [colon, space] else [colon]) = colon ::
      ws' := by
    split_ifs
    · exact ⟨[space], fun c hc => by rw [mem_singleton.mp hc]; rfl, rfl⟩
    · exact ⟨[], blank_nil, rfl⟩
  obtain ⟨ws', hws', hcolon⟩ := hsep
  have hsk : (skipWs ps).rest = sinkQuoted m.1 ++
      (colon :: (ws' ++ dumpValue printG indent depth m.2 ++ tail)) := by
    refine skipWs_rest hws (by decide) ?_
    rw [hps, memberText, hcolon]
    simp [sinkQuoted]
  obtain ⟨ps₁, hread, hrest⟩ := parseStringRaw_quoted hkey hsk
  have hsk₁ := skipWs_rest blank_nil (by decide) hrest
  obtain ⟨ps₂, hvalue, hdone⟩ := hp ((skipWs ps₁).skip 1) ws' tail hws' htail
    (by rw [rest_skip, hsk₁]; rfl)
  refine ⟨ps₂, ?_, hdone⟩
  refine (if_neg ?_).trans ?_
  · rw [hsk]
    exact not_not.mpr rfl
  · rw [hread]
    refine (if_neg ?_).trans ?_
    · rw [hsk₁]
      exact not_not.mpr rfl
    · rw [hvalue]
      rfl

theorem parseValue_number {ps : Parser} {c : Byte} {t : Bytes} (h : (skipWs ps).rest = c :: t)
    (hc : (isSign c || isDigit c) = true) (room : ℕ) :
    parseValue (room + 1) ps = parseNumber (skipWs ps) := by
  have hword : ∀ (d : Byte) (w : Bytes), c ≠ d → ¬(d :: w).isPrefixOf (c :: t) = true := by
    intro d w hne hpre
    rw [isPrefixOf_cons_cons, Bool.and_eq_true] at hpre
    exact hne (eq_of_beq hpre.1).symm
  have htrue : ¬trueText.isPrefixOf (c :: t) = true := hword 0x74 _ (ne_of_number hc (by decide))
  have hfalse : ¬falseText.isPrefixOf (c :: t) = true := hword 0x66 _ (ne_of_number hc (by decide))
  have hnull : ¬nullText.isPrefixOf (c :: t) = true := hword 0x6e _ (ne_of_number hc (by decide))
  rw [parseValue]
  simp only [h]
  rw [if_neg (ne_of_number hc (by decide)), if_neg (ne_of_number hc (by decide)),
    if_neg (ne_of_number hc (by decide)),
    if_neg htrue, if_neg hfalse, if_neg hnull, if_pos hc]

/-- A printed value is read back, by induction on the value. -/
theorem parseValue_read {room : ℕ} {v : Value} (hplain : Plain v) (hroom : depth v < room) (d : ℕ) :
    Reads (parseValue room) (dumpValue printG indent d v) v := by
  induction room generalizing v d with
  | zero => omega
  | succ room ih =>
    intro ps ws tail hws htail hps
    have hsk : (skipWs ps).rest = dumpValue printG indent d v ++ tail := by
      obtain ⟨c, t, ht, hc, -⟩ : Starts (dumpValue printG indent d v) := starts_dumpValue hplain d
      rw [ht] at hps ⊢
      exact skipWs_rest hws hc (by rw [hps, append_assoc]; rfl)
    cases hplain with
    | null =>
      refine ⟨(skipWs ps).skip 4, ?_, by rw [rest_skip, hsk]; rfl⟩
      rw [parseValue]
      simp only [hsk]
      rfl
    | bool b =>
      cases b with
      | true =>
        refine ⟨(skipWs ps).skip 4, ?_, by rw [rest_skip, hsk]; rfl⟩
        rw [parseValue]
        simp only [hsk]
        rfl
      | false =>
        refine ⟨(skipWs ps).skip 5, ?_, by rw [rest_skip, hsk]; rfl⟩
        rw [parseValue]
        simp only [hsk]
        rfl
    | number h =>
      rw [dumpValue, sinkNumber_finite h] at hsk
      obtain ⟨c, t, ht, hc⟩ := printLong_head _
      rw [parseValue_number (by rw [hsk, ht]; rfl) hc]
      exact parseNumber_printLong h htail hsk
    | string h =>
      rw [dumpValue] at hsk
      obtain ⟨ps', hread, hdone⟩ := parseStringRaw_quoted h hsk
      refine ⟨ps', ?_, hdone⟩
      rw [sinkQuoted, append_assoc, cons_append] at hsk
      rw [parseValue]
      simp only [hsk]
      rw [if_neg (by decide), if_neg (by decide), if_pos trivial, hread]
      rfl
    | array h =>
      rename_i items
      rw [dumpValue_array] at hsk
      rw [depth] at hroom
      have hitem : ∀ v ∈ items, Reads (parseValue room) (dumpValue printG indent (d + 1) v) v ∧
          Starts (dumpValue printG indent (d + 1) v) := by
        intro v hv
        have := depth_le_depthItems hv
        exact ⟨ih (h v hv) (by omega) (d + 1), starts_dumpValue (h v hv) (d + 1)⟩
      have hbody : ((skipWs ps).skip 1).rest =
          elements indent d (dumpValue printG indent (d + 1)) rbracket tail items := by
        rw [rest_skip, hsk]
        rfl
      obtain ⟨ps', hread, hdone⟩ := parseList_read (listing_array (parseValue room) d) hitem hbody
      refine ⟨ps', ?_, hdone⟩
      rw [parseValue]
      simp only [hsk]
      exact hread
    | object hkey h =>
      rename_i members
      rw [dumpValue_object] at hsk
      rw [depth] at hroom
      have hmember : ∀ m ∈ members, Reads (parseMember (parseValue room))
        (memberText printG indent (d + 1) m) m ∧
          Starts (memberText printG indent (d + 1) m) := by
        intro m hm
        have := depth_le_depthMembers hm
        exact ⟨parseMember_read (hkey m hm) (ih (h m hm) (by omega) (d + 1)),
          starts_memberText (d + 1) m⟩
      have hbody : ((skipWs ps).skip 1).rest =
          elements indent d (memberText printG indent (d + 1)) rbrace tail members := by
        rw [rest_skip, hsk]
        rfl
      obtain ⟨ps', hread, hdone⟩ := parseList_read
        (listing_object (parseMember (parseValue room)) d) hmember hbody
      refine ⟨ps', ?_, hdone⟩
      rw [parseValue]
      simp only [hsk]
      exact hread

/-! The text has no zero byte. -/

theorem not_mem_escape {c : Byte} (h : c ≠ 0) : 0 ∉ escape c := by
  obtain ⟨he, -⟩ | ⟨e, he, -, hl⟩ | ⟨he, hlt⟩ := escape_cases c
  · rw [he, mem_singleton]
    exact h.symm
  · have h0 : e ≠ 0 := by
      rintro rfl
      cases hl
    rw [he]
    exact not_mem_cons_of_ne_of_not_mem (by decide) (by simpa using h0.symm)
  · have hdigits : ∀ n < 32, hexDigit (UInt8.ofNat n / 16) ≠ 0 ∧
      hexDigit (UInt8.ofNat n % 16) ≠ 0 := by decide
    have hc := hdigits c.toNat hlt
    rw [← eq_ofNat_toNat] at hc
    rw [he]
    simp only [mem_cons, not_mem_nil, or_false, not_or]
    exact ⟨by decide, by decide, by decide, by decide, hc.1.symm, hc.2.symm⟩

theorem not_mem_sinkQuoted (s : Bytes) : 0 ∉ sinkQuoted s := by
  intro h
  rw [sinkQuoted, cons_append, mem_cons, mem_append, mem_flatMap] at h
  rcases h with h | ⟨c, hc, h⟩ | h
  · cases h
  · exact not_mem_escape (by simpa using mem_takeWhile_imp hc) h
  · revert h
    decide

theorem not_mem_sinkIndent (depth : ℕ) : 0 ∉ sinkIndent indent depth := fun h => by
  cases blank_sinkIndent indent depth 0 h

theorem not_mem_printLong (n : ℤ) : 0 ∉ printLong n := by
  have hdigits : 0 ∉ digitBytes n.natAbs := fun h => by cases isDigit_digitBytes _ _ h
  rw [printLong]
  split_ifs
  · exact not_mem_cons_of_ne_of_not_mem (by decide) hdigits
  · exact hdigits

theorem not_mem_elements {α : Type} {text : α → Bytes} {as : List α} {close : Byte}
    (h : ∀ a ∈ as, 0 ∉ text a) (hclose : close ≠ 0) (d : ℕ) :
    0 ∉ elements indent d text close [] as := by
  have hin : 0 ∉ sinkIndent indent (d + 1) := not_mem_sinkIndent (d + 1)
  have hout : 0 ∉ sinkIndent indent d := not_mem_sinkIndent d
  cases as with
  | nil => simpa [elements, listText] using hclose.symm
  | cons a as =>
    simp only [elements, listText, listTail, mem_append, mem_flatMap, mem_cons]
    rintro ((h0 | h0) | (⟨b, hb, (h0 | h0) | h0⟩ | h0) | h0 | h0)
    · exact hin h0
    · exact h a (.head _) h0
    · cases h0
    · exact hin h0
    · exact h b (.tail _ hb) h0
    · exact hout h0
    · exact hclose h0.symm
    · cases h0

theorem not_mem_dumpValue {v : Value} (h : Plain v) (d : ℕ) : 0 ∉ dumpValue printG indent d v := by
  induction h generalizing d with
  | null => rw [dumpValue]; decide
  | bool b =>
    rw [dumpValue]
    cases b <;> decide
  | number h =>
    rw [dumpValue, sinkNumber_finite h]
    exact not_mem_printLong _
  | string h =>
    exact not_mem_sinkQuoted _
  | array h ih =>
    rw [← append_nil (dumpValue _ _ _ _), dumpValue_array, mem_cons, not_or]
    exact ⟨by decide, not_mem_elements (fun v hv => ih v hv (d + 1)) (by decide) d⟩
  | object hkey h ih =>
    rw [← append_nil (dumpValue _ _ _ _), dumpValue_object, mem_cons, not_or]
    refine ⟨by decide, not_mem_elements (fun m hm => ?_) (by decide) d⟩
    rw [memberText, mem_append, mem_append, not_or, not_or]
    refine ⟨⟨not_mem_sinkQuoted _, ?_⟩, ih m hm (d + 1)⟩
    split_ifs <;> decide

/-- `json_parse` reads back every value that `json_dump` writes. -/
theorem json_round_trip (printG : Binary64 → Bytes) (indent : ℤ) {v : Value} (hplain : Plain v)
    (hdepth : depth v ≤ 200) :
    jsonParse (jsonDump printG indent v) = .ok v := by
  have hread : Reads (parseValue 201) (jsonDump printG indent v) v :=
    parseValue_read hplain (Nat.lt_succ_of_le hdepth) 0
  have hzero : 0 ∉ jsonDump printG indent v := not_mem_dumpValue hplain 0
  obtain ⟨ps, hread, hrest⟩ :=
    hread { rest := jsonDump printG indent v, pos := 0, line := 1, lineStart := 0 } [] []
    blank_nil ends_nil (append_nil _).symm
  have hskip : (skipWs ps).rest = [] := by rw [skipWs, skipWsFrom_rest, hrest]; rfl
  rw [jsonParse, cString_eq hzero, jsonParseLen, hread]
  exact if_pos hskip

end

def sample : Value :=
  .object [([0x6b, quote], .array [.null, .number (.finite (-5 : ℤ)), .string [newline, 0x01, 0xff],
    .array []]), ([], .object [])]

theorem plain_sample : Plain sample := by
  refine .object (by decide) ?_
  simp only [forall_mem_cons]
  refine ⟨.array ?_, .object (by decide) (by simp), by simp⟩
  simp only [forall_mem_cons]
  exact ⟨.null, .number (by decide), .string (by decide), .array (by simp), by simp⟩

theorem json_round_trip_sample : jsonParse (jsonDump (fun _ => []) 2 sample) = .ok sample :=
  json_round_trip _ 2 plain_sample (by decide)

end Cervus.Json
