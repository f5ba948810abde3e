import Mathlib.Data.List.Basic

/-! Lexical normalisation of a path, and the fold over its components that it computes. -/

namespace Cervus.Fs

open List

def pathBuf : Nat := 512

def dropName : List Char → List Char
  | c :: d :: buf => if c ≠ '/' then dropName (d :: buf) else c :: d :: buf
  | buf => buf

def popName (buf : List Char) : List Char :=
  if buf.length > 1 then
    let buf := dropName buf.tail
    let buf := if buf.length > 1 ∧ buf.head? = some '/' then buf.tail else buf
    if buf = [] then ['/'] else buf
  else buf

/-- The main loop: `buf` with its last character first, `rest` from `path[i]` on,
and fuel for the characters that are left. -/
def normalizeLoop : Nat → List Char → List Char → List Char
  | 0, buf, _ => buf
  | n + 1, buf, rest =>
    let rest := rest.dropWhile (· = '/')
    if rest = [] then buf
    else
      let seg := rest.takeWhile (· ≠ '/')
      let rest := rest.dropWhile (· ≠ '/')
      if seg = ['.'] then normalizeLoop n buf rest
      else if seg = ['.', '.'] then normalizeLoop n (popName buf) rest
      else if buf ≠ [] ∧ buf.head? ≠ some '/' ∧ buf.length ≥ pathBuf - 1 then buf
      else
        let buf := if buf ≠ [] ∧ buf.head? ≠ some '/' then '/' :: buf else buf
        normalizeLoop n ((seg.take (pathBuf - 1 - buf.length)).reverse ++ buf) rest

def syscallPathNormalize (path : List Char) : List Char :=
  if path = [] then path
  else
    let buf := normalizeLoop path.length (if path.head? = some '/' then ['/'] else []) path
    let buf := if buf = [] then ['/'] else buf
    let buf := if buf.length > 1 ∧ buf.head? = some '/' then buf.tail else buf
    (buf.reverse).take (pathBuf - 1)

/-- What one component does to the stack of names, the last name first. -/
def pushName (names : List (List Char)) (c : List Char) : List (List Char) :=
  if c = ['.'] then names
  else if c = ['.', '.'] then names.tail
  else c :: names

def components (path : List Char) : List (List Char) := (path.splitOn '/').filter (· ≠ [])

def absolutePath (names : List (List Char)) : List Char := '/' :: ['/'].intercalate names.reverse

structure IsName (c : List Char) : Prop where
  nonempty : c ≠ []
  noSlash : '/' ∉ c
  notDot : c ≠ ['.']
  notDotDot : c ≠ ['.', '.']

section
variable {names : List (List Char)} {buf rest c : List Char}

theorem components_append_slash (xs ys : List Char) :
    components (xs ++ '/' :: ys) = components xs ++ components ys := by
  rw [components, splitOn, splitOnP_append_cons xs ys (by simp), filter_append]
  rfl

theorem components_noSlash (hc : '/' ∉ c) (hne : c ≠ []) : components c = [c] := by
  rw [components, splitOn, splitOnP_eq_singleton]
  · simp [hne]
  · intro x hx
    simp only [beq_eq_false_iff_ne, ne_eq]
    rintro rfl
    exact hc hx

theorem components_nil : components [] = [] := by simp [components]

theorem components_slash (rest : List Char) : components ('/' :: rest) = components rest := by
  have h := components_append_slash [] rest
  rwa [components_nil] at h

def nameBuf : List (List Char) → List Char
  | [] => ['/']
  | [c] => c.reverse ++ ['/']
  | c :: d :: names => c.reverse ++ '/' :: nameBuf (d :: names)

theorem intercalate_append_singleton (l : List (List Char)) (x c : List Char) :
    ['/'].intercalate ((x :: l) ++ [c]) = ['/'].intercalate (x :: l) ++ '/' :: c := by
  induction l generalizing x with
  | nil => simp [intercalate]
  | cons y l ih =>
    have h1 : (x :: y :: l) ++ [c] = x :: y :: (l ++ [c]) := rfl
    rw [h1, intercalate_cons_cons, intercalate_cons_cons]
    have h2 := ih y
    rw [cons_append] at h2
    rw [h2]
    simp [append_assoc]

theorem nameBuf_reverse (names : List (List Char)) :
    (nameBuf names).reverse = absolutePath names := by
  induction names with
  | nil => rfl
  | cons c names ih =>
    cases names with
    | nil => simp [nameBuf, absolutePath]
    | cons d names =>
      rw [absolutePath] at ih ⊢
      rw [nameBuf, reverse_append, reverse_cons, ih, reverse_reverse,
        @List.reverse_cons _ _ (d :: names)]
      obtain ⟨x, l, hx⟩ : ∃ x l, (d :: names).reverse = x :: l := by
        cases hr : (d :: names).reverse with
        | nil => simp at hr
        | cons x l => exact ⟨x, l, rfl⟩
      rw [hx, intercalate_append_singleton]
      simp

theorem dropName_append {xs : List Char} (hxs : '/' ∉ xs) (buf : List Char) :
    dropName (xs ++ '/' :: buf) = '/' :: buf := by
  induction xs with
  | nil => cases buf <;> simp [dropName]
  | cons x xs ih =>
    have hx : x ≠ '/' := fun h => hxs (h ▸ mem_cons_self)
    have hxs' : '/' ∉ xs := fun h => hxs (mem_cons_of_mem _ h)
    obtain ⟨d, l, hl⟩ : ∃ d l, xs ++ '/' :: buf = d :: l := by
      cases xs with
      | nil | cons d l => exact ⟨_, _, rfl⟩
    rw [cons_append, hl, dropName, if_pos hx, ← hl]
    exact ih hxs'

theorem nameBuf_ne_nil (names : List (List Char)) : nameBuf names ≠ [] := by
  cases names with
  | nil => simp [nameBuf]
  | cons c names => cases names <;> simp [nameBuf]

theorem popName_nameBuf (hn : ∀ c ∈ names, IsName c) :
    popName (nameBuf names) = nameBuf names.tail := by
  cases names with
  | nil => rfl
  | cons c names =>
    have hc := hn c mem_cons_self
    obtain ⟨x, xs, hx⟩ : ∃ x xs, c.reverse = x :: xs := by
      cases hr : c.reverse with
      | nil => exact absurd (reverse_eq_nil_iff.mp hr) hc.nonempty
      | cons x xs => exact ⟨x, xs, rfl⟩
    have hxs : '/' ∉ xs := fun h => hc.noSlash (mem_reverse.mp (hx ▸ mem_cons_of_mem _ h))
    cases names with
    | nil =>
      simp only [nameBuf, hx, popName, cons_append, tail_cons, dropName_append hxs]
      simp
    | cons d names =>
      have hne := nameBuf_ne_nil (d :: names)
      simp only [nameBuf, hx, popName, cons_append, tail_cons, dropName_append hxs]
      have hlen : 0 < (nameBuf (d :: names)).length := length_pos_iff.mpr hne
      simp [hne, hlen]

theorem nameBuf_cons (c : List Char) (names : List (List Char)) : nameBuf (c :: names) =
    c.reverse ++ if names = [] then ['/'] else '/' :: nameBuf names := by
  cases names with
  | nil | cons d names => simp [nameBuf]

theorem nameBuf_head (hn : ∀ c ∈ names, IsName c) :
    (nameBuf names).head? = some '/' ↔ names = [] := by
  cases names with
  | nil => simp [nameBuf]
  | cons c names =>
    have hc := hn c mem_cons_self
    rw [nameBuf_cons]
    cases hr : c.reverse with
    | nil => exact absurd (reverse_eq_nil_iff.mp hr) hc.nonempty
    | cons x xs =>
      have hx : x ≠ '/' := by
        rintro rfl
        exact hc.noSlash (mem_reverse.mp (hr ▸ mem_cons_self))
      simp [hx]

theorem components_dropWhile (rest : List Char) :
    components (rest.dropWhile (· = '/')) = components rest := by
  induction rest with
  | nil => rfl
  | cons x rest ih =>
    by_cases hx : x = '/'
    · subst hx
      rw [dropWhile_cons_of_pos (by simp), ih, components_slash]
    · rw [dropWhile_cons_of_neg (by simpa using hx)]

structure Front (rest seg rest' : List Char) : Prop where
  split : rest = seg ++ rest'
  nonempty : seg ≠ []
  noSlash : '/' ∉ seg
  next : rest' = [] ∨ rest'.head? = some '/'

theorem front (hne : rest ≠ []) (hs : rest.head? ≠ some '/') :
    Front rest (rest.takeWhile (· ≠ '/')) (rest.dropWhile (· ≠ '/')) := by
  refine ⟨(takeWhile_append_dropWhile).symm, ?_, ?_, ?_⟩
  · cases rest with
    | nil => exact absurd rfl hne
    | cons x rest =>
      have hx : x ≠ '/' := fun h => hs (by rw [h]; rfl)
      rw [takeWhile_cons_of_pos (by simpa using hx)]
      exact cons_ne_nil _ _
  · intro h
    have hall := all_takeWhile (p := fun y : Char => decide (y ≠ '/')) (l := rest)
    simpa using all_eq_true.mp hall _ h
  · cases hd : rest.dropWhile (· ≠ '/') with
    | nil => exact .inl rfl
    | cons x l =>
      have hx := List.head?_dropWhile_not (fun y : Char => decide (y ≠ '/')) rest
      rw [hd] at hx
      exact .inr (by simpa using hx)

theorem Front.components {seg rest' : List Char} (h : Front rest seg rest') :
    components rest = seg :: components rest' := by
  rw [h.split]
  rcases h.next with rfl | hn
  · rw [append_nil, components_noSlash h.noSlash h.nonempty, components_nil]
  · obtain ⟨l, rfl⟩ := List.head?_eq_some_iff.mp hn
    rw [components_append_slash, components_noSlash h.noSlash h.nonempty, components_slash]
    rfl

theorem dropWhile_slash_head (rest : List Char) : (rest.dropWhile (· = '/')).head? ≠ some '/' := by
  intro h
  have := List.head?_dropWhile_not (fun y : Char => decide (y = '/')) rest
  rw [h] at this
  simp at this

theorem length_dropWhile_slash (hs : rest.head? = some '/') :
    (rest.dropWhile (· = '/')).length + 1 ≤ rest.length := by
  obtain ⟨l, rfl⟩ := List.head?_eq_some_iff.mp hs
  rw [dropWhile_cons_of_pos (by simp), length_cons]
  exact Nat.succ_le_succ (dropWhile_sublist _).length_le

theorem length_nameBuf_cons (c : List Char) (names : List (List Char)) :
    (nameBuf (c :: names)).length =
    c.length + if names = [] then 1 else (nameBuf names).length + 1 := by
  rw [nameBuf_cons, length_append, length_reverse]
  split_ifs <;> simp

theorem pushName_buf (hn : ∀ c ∈ names, IsName c)
    (hroom : (nameBuf (c :: names)).length ≤ pathBuf - 1) :
    ¬(nameBuf names ≠ [] ∧ (nameBuf names).head? ≠ some '/' ∧
      (nameBuf names).length ≥ pathBuf - 1) ∧
    ∀ buf, buf = (if nameBuf names ≠ [] ∧ (nameBuf names).head? ≠ some '/' then '/' :: nameBuf names
        else nameBuf names) →
      (c.take (pathBuf - 1 - buf.length)).reverse ++ buf = nameBuf (c :: names) := by
  have hlen := length_nameBuf_cons c names
  have hhead := nameBuf_head hn
  by_cases he : names = []
  · rw [if_pos he] at hlen
    refine ⟨fun h => h.2.1 (hhead.mpr he), ?_⟩
    rintro buf rfl
    rw [if_neg (fun h => h.2 (hhead.mpr he)), he, nameBuf_cons, if_pos rfl]
    rw [take_of_length_le (by simp only [nameBuf, length_singleton]; omega)]
    rfl
  · rw [if_neg he] at hlen
    refine ⟨fun h => by omega, ?_⟩
    rintro buf rfl
    rw [if_pos ⟨nameBuf_ne_nil _, fun h => he (hhead.mp h)⟩, nameBuf_cons, if_neg he,
      take_of_length_le (by rw [length_cons]; omega)]

theorem length_nameBuf_tail (names : List (List Char)) :
    (nameBuf names.tail).length ≤ (nameBuf names).length := by
  cases names with
  | nil => exact Nat.le_refl _
  | cons c names =>
    rw [length_nameBuf_cons, tail_cons]
    split_ifs with h
    · rw [h]
      exact Nat.le_add_left _ _
    · omega

/-- By induction on the rest of the path, the buffer holds the names so far. -/
theorem normalizeLoop_eq {n N : Nat} (hN : N < pathBuf) (hn : rest.length ≤ n)
    (hs : rest = [] ∨ rest.head? = some '/') (hr : rest.length ≤ N) (hnames : ∀ c ∈ names, IsName c)
    (hb : names = [] ∨ (nameBuf names).length + rest.length ≤ N) :
    normalizeLoop n (nameBuf names) rest = nameBuf ((components rest).foldl pushName names) ∧
    (∀ c ∈ (components rest).foldl pushName names, IsName c) ∧
    ((components rest).foldl pushName names = [] ∨
      (nameBuf ((components rest).foldl pushName names)).length ≤ N) := by
  have hend : names = [] ∨ (nameBuf names).length ≤ N := hb.imp_right fun h => by omega
  induction n generalizing rest names with
  | zero =>
    obtain rfl : rest = [] := length_eq_zero_iff.mp (by omega)
    exact ⟨rfl, hnames, hend⟩
  | succ n ih =>
    rcases hs with rfl | hs
    · rw [components_nil]
      exact ⟨rfl, hnames, hend⟩
    have hskip := length_dropWhile_slash hs
    rw [← components_dropWhile rest, normalizeLoop]
    have hhead := dropWhile_slash_head rest
    generalize rest.dropWhile (· = '/') = tail at hskip hhead
    dsimp only
    by_cases hne : tail = []
    · subst hne
      exact ⟨rfl, hnames, hend⟩
    have hf := front hne hhead
    rw [if_neg hne, hf.components]
    generalize tail.takeWhile (· ≠ '/') = seg at hf ⊢
    generalize tail.dropWhile (· ≠ '/') = next at hf ⊢
    have hlen : tail.length = seg.length + next.length := by rw [hf.split, length_append]
    rw [foldl_cons, pushName]
    by_cases hd : seg = ['.']
    · rw [if_pos hd, if_pos hd]
      have hb' : names = [] ∨ (nameBuf names).length + next.length ≤ N :=
        hb.imp_right fun h => by omega
      exact ih (by omega) hf.next (by omega) hnames hb' hend
    rw [if_neg hd, if_neg hd]
    by_cases hdd : seg = ['.', '.']
    · rw [if_pos hdd, if_pos hdd, popName_nameBuf hnames]
      have htail := length_nameBuf_tail names
      have hb' : names.tail = [] ∨ (nameBuf names.tail).length + next.length ≤ N := by
        rcases hb with rfl | hb
        · exact .inl rfl
        · exact .inr (by omega)
      exact ih (by omega) hf.next (by omega) (fun c hc => hnames c (mem_of_mem_tail hc)) hb'
        (hb'.imp_right fun h => by omega)
    have hseg : IsName seg := ⟨hf.nonempty, hf.noSlash, hd, hdd⟩
    have hroom : (nameBuf (seg :: names)).length + next.length ≤ N := by
      have hl := length_nameBuf_cons seg names
      split_ifs at hl with he
      · omega
      · have := hb.resolve_left he
        omega
    obtain ⟨hfull, hpush⟩ := pushName_buf hnames (c := seg) (by omega)
    rw [if_neg hdd, if_neg hdd, if_neg hfull, hpush _ rfl]
    exact ih (by omega) hf.next (by omega) (forall_mem_cons.mpr ⟨hseg, hnames⟩) (.inr hroom)
      (.inr (by omega))

end

section
variable {path : List Char}

def normalNames (path : List Char) : List (List Char) := (components path).foldl pushName []

/-- Normalizing a path that fits gives its names, folded. -/
theorem syscallPathNormalize_eq (habs : path.head? = some '/') (hlen : path.length < pathBuf) :
    syscallPathNormalize path = absolutePath (normalNames path) ∧
      (∀ c ∈ normalNames path, IsName c) ∧
    (absolutePath (normalNames path)).length ≤ path.length := by
  have hne : path ≠ [] := by
    rintro rfl
    simp at habs
  have hnil : ∀ c ∈ ([] : List (List Char)), IsName c := nofun
  obtain ⟨hloop, hnames, hsize⟩ := normalizeLoop_eq hlen (Nat.le_refl path.length) (.inr habs)
    (Nat.le_refl _)
    hnil (.inl rfl)
  have hpos := length_pos_iff.mpr hne
  have hlen' : (nameBuf (normalNames path)).length ≤ path.length := by
    rcases hsize with he | hsize
    · rw [normalNames, he]
      exact hpos
    · exact hsize
  refine ⟨?_, hnames, by rw [← nameBuf_reverse, length_reverse]; exact hlen'⟩
  rw [syscallPathNormalize, if_neg hne, if_pos habs]
  have hstart : ['/'] = nameBuf [] := rfl
  dsimp only
  rw [hstart, hloop, ← normalNames, if_neg (nameBuf_ne_nil _), if_neg, nameBuf_reverse,
    take_of_length_le]
  · rw [← nameBuf_reverse, length_reverse]
    omega
  · -- only the root ends in a slash, and it is one character long
    rintro ⟨h1, h2⟩
    have he : normalNames path = [] := (nameBuf_head hnames).mp h2
    rw [he] at h1
    exact absurd h1 (by decide)

variable {names : List (List Char)}

theorem foldl_pushName_names (l : List (List Char)) (names : List (List Char))
    (hl : ∀ c ∈ l, IsName c) :
    l.foldl pushName names = l.reverse ++ names := by
  induction l generalizing names with
  | nil => rfl
  | cons c l ih =>
    have hc := hl c mem_cons_self
    rw [foldl_cons, pushName, if_neg hc.notDot, if_neg hc.notDotDot,
      ih _ fun d hd => hl d (mem_cons_of_mem _ hd), reverse_cons, append_assoc]
    rfl

section
variable (hn : ∀ c ∈ names, IsName c)
include hn

theorem splitOn_names (h0 : names ≠ []) :
    (['/'].intercalate names.reverse).splitOn '/' = names.reverse :=
  splitOn_intercalate '/' (fun c hc => (hn c (mem_reverse.mp hc)).noSlash) (by simpa using h0)

theorem components_absolutePath : components (absolutePath names) = names.reverse := by
  rw [absolutePath, components_slash, components]
  by_cases h0 : names = []
  · simp [h0, intercalate]
  · rw [splitOn_names hn h0]
    exact filter_eq_self.mpr fun c hc => by simpa using (hn c (mem_reverse.mp hc)).nonempty

theorem normalNames_absolutePath : normalNames (absolutePath names) = names := by
  rw [normalNames, components_absolutePath hn,
    foldl_pushName_names _ _ fun c hc => hn c (mem_reverse.mp hc), reverse_reverse, append_nil]

/-- No empty, `.` or `..` component, and no slash at the end unless there is nothing else. -/
structure Normal (path : List Char) : Prop where
  absolute : path.head? = some '/'
  names : path = ['/'] ∨ ∀ c ∈ path.tail.splitOn '/', c ≠ [] ∧ c ≠ ['.'] ∧ c ≠ ['.', '.']
  last : path.getLast? = some '/' → path = ['/']

theorem normal_absolutePath : Normal (absolutePath names) := by
  refine ⟨rfl, ?_, fun h => ?_⟩
  · rw [absolutePath, tail_cons]
    by_cases h0 : names = []
    · exact .inl (by rw [h0]; rfl)
    · rw [splitOn_names hn h0]
      refine .inr fun c hc => ?_
      have hc := hn c (mem_reverse.mp hc)
      exact ⟨hc.nonempty, hc.notDot, hc.notDotDot⟩
  · rw [← nameBuf_reverse, List.getLast?_reverse, nameBuf_head hn] at h
    rw [h]
    rfl

end

/-- Normalising an absolute path that fits the buffer folds its components. -/
theorem path_normalize (habs : path.head? = some '/') (hlen : path.length < 512) :
    syscallPathNormalize path = '/' :: ['/'].intercalate
      ((components path).foldl pushName []).reverse ∧
    (syscallPathNormalize path).length ≤ path.length ∧ Normal (syscallPathNormalize path) ∧
    syscallPathNormalize (syscallPathNormalize path) = syscallPathNormalize path := by
  obtain ⟨heq, hnames, hsize⟩ := syscallPathNormalize_eq habs hlen
  rw [heq]
  refine ⟨rfl, hsize, normal_absolutePath hnames, ?_⟩
  rw [(syscallPathNormalize_eq rfl (Nat.lt_of_le_of_lt hsize hlen)).1,
    normalNames_absolutePath hnames]

theorem path_normalize_dots : syscallPathNormalize "//a/./b/../c/".toList = "/a/c".toList ∧
    Normal (syscallPathNormalize "//a/./b/../c/".toList) :=
  ⟨by decide, (path_normalize rfl (by decide)).2.2.1⟩

theorem normalNames_append (path rel : List Char) :
    normalNames (path ++ '/' :: rel) = (components rel).foldl pushName (normalNames path) := by
  rw [normalNames, components_append_slash, foldl_append, normalNames]

/-- A name below a directory leads to the same path from the directory as it was given and from
its normal form. -/
theorem normalize_below {rel : List Char} (habs : path.head? = some '/')
    (hlen : (path ++ '/' :: rel).length < 512) :
    syscallPathNormalize (syscallPathNormalize path ++ '/' :: rel) =
      syscallPathNormalize (path ++ '/' :: rel) := by
  rw [length_append] at hlen
  obtain ⟨heq, hnames, hsize⟩ := syscallPathNormalize_eq habs (Nat.lt_of_add_right_lt hlen)
  have hbelow : (absolutePath (normalNames path) ++ '/' :: rel).length < pathBuf := by
    rw [length_append]
    exact Nat.lt_of_le_of_lt (Nat.add_le_add_right hsize _) hlen
  rw [heq, (syscallPathNormalize_eq rfl hbelow).1, normalNames_append,
    normalNames_absolutePath hnames,
    (syscallPathNormalize_eq (by simp [habs]) (by rwa [length_append])).1, normalNames_append]

theorem normalize_below_dots : syscallPathNormalize
    (syscallPathNormalize "/a/b/..".toList ++ '/' :: "../c".toList) = "/c".toList :=
  (normalize_below rfl (by decide)).trans (by decide)

end
end Cervus.Fs
