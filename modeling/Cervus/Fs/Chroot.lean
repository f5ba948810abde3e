import Cervus.Fs.Lookup

/-! A task with a root directory stays under it: whatever links the walk meets, every
path that is looked up begins with the root, and no lookup leads out of it. -/

namespace Cervus.Fs

open List

section
variable {V : Type} {fs : Vfs V} {root path : List Char}

def TrivialRoot (root : List Char) : Prop := root = [] ∨ root = ['/']

/-- The nodes of the subtree whose root is `top`: what lies under it in its own file
system, and what is mounted there. -/
inductive Below (fs : Vfs V) (root : List Char) (top : V) : V → Prop
  | top : Below fs root top top
  | mount (m : List Char × V) (hm : m ∈ fs.mounts) (hu : TrivialRoot root ∨
    underRoot m.1 root = true) :
      Below fs root top m.2
  | child (d : V) (c : List Char) (n : V) (hd : Below fs root top d) (hn : fs.lookup d c = .ok n)
      (hc : c ≠ ['.', '.']) : Below fs root top n

/-- The directories form a tree: `..` leads back to where a node was found. -/
structure IsTree (fs : Vfs V) : Prop where
  dot : ∀ d n, fs.lookup d ['.'] = .ok n → n = d
  parent : ∀ d c n u, c ≠ ['.'] → c ≠ ['.', '.'] → fs.lookup d c = .ok n →
    fs.lookup n ['.', '.'] = .ok u → u = d

def plainWalk (fs : Vfs V) : V → List (List Char) → Option V
  | v, [] => some v
  | v, c :: cs =>
    match fs.lookup v c with
    | .ok n => if fs.type n = .symlink then none else plainWalk fs n cs
    | .error _ => none

/-- The root of a task: that of the whole tree, or a normal path (as `sys_chroot` leaves
it) that leads to a node without meeting a link. -/
inductive RootDir (fs : Vfs V) (root : List Char) (top : V) : Prop
  | whole (ht : TrivialRoot root) (hm : (['/'], top) ∈ fs.mounts)
  | dir (names : List (List Char)) (hn : ∀ c ∈ names, IsName c) (hne : names ≠ [])
      (hr : root = absolutePath names) (hlen : root.length < vfsMaxName) (m : List Char × V)
      (hm : findMount fs.mounts root = some m)
      (hw : plainWalk fs m.2 (components (root.drop m.1.length)) = some top)

def Good (root path : List Char) : Prop :=
  (TrivialRoot root ∧ ∀ c ∈ components path, IsName c) ∨
  ∃ p, path = root ++ p ∧ (p = [] ∨ p.head? = some '/') ∧ ∀ c ∈ components p, IsName c

variable {c curpath mount p q : List Char} {B : V → Prop} {cur top u : V}
    {again : List Char → Except Int V}
  {follow : Bool} {mounts : List (List Char × V)} {best : Option (List Char × V)} {m :
    List Char × V}
  {t : PathTask}

theorem of_exit {α : Type*} {c : Prop} [Decidable c] {a b x : α} (h : (if c then a else b) = x)
    (ha : a ≠ x) :
    ¬c ∧ b = x := by
  split_ifs at h with hc
  · exact absurd h ha
  · exact ⟨hc, h⟩

theorem components_append (h : q = [] ∨ q.head? = some '/') :
    components (p ++ q) = components p ++ components q := by
  rcases h with rfl | h
  · rw [append_nil, components_nil, append_nil]
  · obtain ⟨l, rfl⟩ := List.head?_eq_some_iff.mp h
    rw [components_append_slash, components_slash]

theorem components_skipSlashes (p : List Char) : components (skipSlashes p) = components p :=
  components_dropWhile p

theorem length_skipSlashes (p : List Char) : (skipSlashes p).length ≤ p.length :=
  (dropWhile_sublist _).length_le

theorem length_of_mem_components (h : c ∈ components p) : c.length ≤ p.length := by
  induction hn : p.length using Nat.strongRecOn generalizing p with
  | _ n ih =>
    rw [← components_skipSlashes] at h
    have hle := length_skipSlashes p
    by_cases hne : skipSlashes p = []
    · rw [hne, components_nil] at h
      cases h
    · have hf := front hne (dropWhile_slash_head p)
      have hsplit := congrArg length hf.split
      rw [length_append] at hsplit
      have hpos := length_pos_iff.mpr hf.nonempty
      rw [hf.components] at h
      rcases mem_cons.mp h with rfl | h
      · omega
      · have := ih _ (by omega) h rfl
        omega

/-- The next component, cut at the longest name; the rest comes as one of its own. -/
theorem pathNextComponent_spec (p : List Char) :
    (components p = [] ∧ (pathNextComponent p).1 = []) ∨
    ∃ c cs, components p = c :: cs ∧ c ≠ [] ∧ (pathNextComponent p).1 = c.take (vfsMaxName - 1) ∧
      components (pathNextComponent p).2 =
        (if c.drop (vfsMaxName - 1) = [] then cs else c.drop (vfsMaxName - 1) :: cs) ∧
      (pathNextComponent p).2.length < p.length := by
  have hle := length_skipSlashes p
  by_cases hne : skipSlashes p = []
  · refine .inl ⟨by rw [← components_skipSlashes, hne, components_nil], ?_⟩
    unfold pathNextComponent
    rw [hne]
    rfl
  have hf := front hne (dropWhile_slash_head p)
  generalize hc : (skipSlashes p).takeWhile (· ≠ '/') = c at hf
  generalize (skipSlashes p).dropWhile (· ≠ '/') = q at hf
  have hpos := length_pos_iff.mpr hf.nonempty
  have hsplit := congrArg length hf.split
  rw [length_append] at hsplit
  have hrest : (pathNextComponent p).2 = c.drop (vfsMaxName - 1) ++ q := by
    unfold pathNextComponent
    dsimp only
    rw [hc, hf.split, length_take]
    rcases Nat.le_total (vfsMaxName - 1) c.length with h | h
    · rw [Nat.min_eq_left h, drop_append_of_le_length h]
    · rw [Nat.min_eq_right h, drop_left, drop_eq_nil_of_le h, nil_append]
  refine .inr ⟨c, components q,
    by rw [← components_skipSlashes]; exact hf.components, hf.nonempty, ?_, ?_, ?_⟩
  · unfold pathNextComponent
    dsimp only
    rw [hc]
  · rw [hrest]
    split_ifs with hd
    · rw [hd, nil_append]
    · exact Front.components ⟨rfl, hd, fun h => hf.noSlash (mem_of_mem_drop h), hf.next⟩
  · rw [hrest, length_append, length_drop]
    have h255 : 0 < vfsMaxName - 1 := by decide
    omega

structure WalkOk (fs : Vfs V) (B : V → Prop) (cur : V) (p : List Char) : Prop where
  here : B cur
  names : ∀ c cs, components p = c :: cs → ∀ c' ∈ cs, IsName c'
  first : ∀ c cs, components p = c :: cs → c = ['.'] ∨ c = ['.', '.'] →
    ∃ d c', B d ∧ fs.lookup d c' = .ok cur ∧ c' ≠ ['.'] ∧ c' ≠ ['.', '.']

theorem WalkOk.of_names (h : B cur) (hn : ∀ c ∈ components p, IsName c) : WalkOk fs B cur p := by
  refine ⟨h, fun c cs he c' hc' => hn c' (he ▸ mem_cons_of_mem _ hc'), fun c cs he hd => ?_⟩
  have hc := hn c (he ▸ mem_cons_self)
  rcases hd with hd | hd
  · exact absurd hd hc.notDot
  · exact absurd hd hc.notDotDot

theorem eq_of_take_eq {s : List Char} (h : c.take (vfsMaxName - 1) = s)
    (hs : s.length < vfsMaxName - 1) : c = s := by
  have hlen := congrArg length h
  rw [length_take] at hlen
  rw [← h, take_of_length_le (by omega)]

/-- A step of the walk stays below. -/
theorem WalkOk.next {n : V} (ht : IsTree fs)
    (hB : ∀ d c n, B d → fs.lookup d c = .ok n → c ≠ ['.', '.'] → B n) (h : WalkOk fs B cur p)
    (hne : (pathNextComponent p).1 ≠ []) (hl : fs.lookup cur (pathNextComponent p).1 = .ok n) :
    WalkOk fs B n (skipSlashes (pathNextComponent p).2) := by
  obtain ⟨-, he⟩ | ⟨c, cs, hp, hcne, hcomp, hrest, -⟩ := pathNextComponent_spec p
  · exact absurd he hne
  rw [hcomp] at hl
  have hn : B n := by
    by_cases hdd : c.take (vfsMaxName - 1) = ['.', '.']
    · have hc : c = ['.', '.'] := eq_of_take_eq hdd (by decide)
      obtain ⟨d, c', hd, hlook, h1, h2⟩ := h.first c cs hp (.inr hc)
      rw [hdd] at hl
      exact ht.parent d c' cur n h1 h2 hlook hl ▸ hd
    · exact hB cur _ n h.here hl hdd
  rw [← components_skipSlashes] at hrest
  by_cases hd : c.drop (vfsMaxName - 1) = []
  · rw [if_pos hd] at hrest
    exact .of_names hn (hrest ▸ h.names c cs hp)
  -- the component goes on, so that what was looked up has its full length
  rw [if_neg hd] at hrest
  have hfull : (c.take (vfsMaxName - 1)).length = vfsMaxName - 1 := by
    rw [length_take]
    refine Nat.min_eq_left (Nat.le_of_not_lt fun hlt => hd ?_)
    exact drop_eq_nil_of_le (by omega)
  refine ⟨hn, fun c1 cs1 he => ?_, fun c1 cs1 he hdot => ⟨cur, _, h.here, hl, ?_, ?_⟩⟩
  · rw [hrest, cons.injEq] at he
    exact he.2 ▸ h.names c cs hp
  · intro hdot
    rw [hdot] at hfull
    exact absurd hfull (by decide)
  · intro hdot
    rw [hdot] at hfull
    exact absurd hfull (by decide)

theorem head_appendName (h : curpath.head? = some '/') (comp : List Char) :
    (appendName curpath comp).head? = some '/' := by
  obtain ⟨l, rfl⟩ := List.head?_eq_some_iff.mp h
  unfold appendName
  split_ifs <;> rfl

theorem dropSlashes_getLast (p : List Char) : (dropSlashes p).getLast? = p.getLast? := by
  fun_induction dropSlashes p with
  | case1 d p ih => rw [ih, List.getLast?_cons_cons]
  | case2 | case3 => rfl

theorem head_startPath {base : List Char} (h : base.head? = some '/') :
    (startPath base).head? = some '/' := by
  unfold startPath
  rw [List.head?_reverse, dropSlashes_getLast, List.getLast?_reverse]
  obtain ⟨l, rfl⟩ := List.head?_eq_some_iff.mp h
  rfl

theorem head_after (root p : List Char) : (root ++ p)[root.length]? = p.head? := by
  rw [List.getElem?_append_right (Nat.le_refl _), Nat.sub_self, ← List.head?_eq_getElem?]

theorem underRoot_split (h : underRoot path root = true) :
    ∃ p, path = root ++ p ∧ (p = [] ∨ p.head? = some '/') := by
  unfold underRoot at h
  rw [Bool.and_eq_true, isPrefixOf_iff_prefix] at h
  obtain ⟨⟨p, rfl⟩, hc⟩ := h
  refine ⟨p, rfl, ?_⟩
  rw [head_after] at hc
  simpa [or_comm] using hc

/-- The path that replaces a link is again one of the root. -/
theorem followLink_good {dirpath target rest full : List Char}
    (hr : TrivialRoot root ∨ root.head? = some '/') (hd : dirpath.head? = some '/')
    (h : followLink root dirpath target rest = .ok full) : Good root full := by
  have hrl : linkRootLen root = 0 ∧ TrivialRoot root ∨ linkRootLen root = root.length ∧
      root.head? = some '/' := by
    unfold linkRootLen
    split_ifs with ht
    · exact .inl ⟨rfl, ht⟩
    · exact .inr ⟨rfl, hr.resolve_left ht⟩
  unfold followLink at h
  obtain ⟨h1, h⟩ := of_exit h nofun
  generalize hfull : (if target.head? = some '/' then root.take (linkRootLen root) ++ target
    else dirpath ++ '/' :: target) = start at h
  have hstart : start.head? = some '/' ∧ start.length < pathBuf := by
    have h512 : vfsMaxPath = pathBuf := rfl
    subst hfull
    split_ifs at h1 ⊢ with habs
    · rw [length_append, length_take]
      refine ⟨?_, by omega⟩
      rcases hrl with ⟨h0, -⟩ | ⟨h0, hroot⟩
      · rw [h0, take_zero]
        exact habs
      · rw [h0, take_length, List.head?_append, hroot]
        rfl
    · rw [List.head?_append, hd, length_append, length_cons]
      exact ⟨rfl, by omega⟩
  obtain ⟨h2, h⟩ := of_exit h nofun
  generalize hraw : (if rest ≠ [] then start ++ '/' :: rest else start) = raw at h
  have hrawOk : raw.head? = some '/' ∧ raw.length < pathBuf := by
    have h512 : vfsMaxPath = pathBuf := rfl
    subst hraw
    split_ifs with hrest
    · rw [List.head?_append, hstart.1, length_append, length_cons]
      refine ⟨rfl, ?_⟩
      have hle : ¬start.length + 1 + rest.length + 1 > vfsMaxPath := fun hgt => h2 ⟨hrest, hgt⟩
      omega
    · exact hstart
  obtain ⟨heq, hnames, -⟩ := syscallPathNormalize_eq hrawOk.1 hrawOk.2
  have hcomp : ∀ c ∈ components (syscallPathNormalize raw), IsName c := by
    rw [heq, components_absolutePath hnames]
    exact fun c hc => hnames c (mem_reverse.mp hc)
  obtain rfl := Except.ok.inj h
  split_ifs with hroot
  · exact .inr ⟨[], (append_nil _).symm, .inl rfl, by rw [components_nil]; exact nofun⟩
  rcases hrl with ⟨-, ht⟩ | ⟨h0, hhead⟩
  · exact .inl ⟨ht, hcomp⟩
  have hne : linkRootLen root ≠ 0 := by
    rw [h0]
    exact fun he => by rw [length_eq_zero_iff.mp he] at hhead; cases hhead
  have hunder : underRoot (syscallPathNormalize raw) root = true := by
    by_contra hu
    exact hroot ⟨hne, Bool.eq_false_iff.mpr hu⟩
  obtain ⟨p, hp, hps⟩ := underRoot_split hunder
  refine .inr ⟨p, hp, hps, fun c hc => hcomp c ?_⟩
  rw [hp, components_append hps]
  exact mem_append_right _ hc

/-- A walk that starts below ends below. -/
theorem walkLoop_below (ht : IsTree fs)
    (hB : ∀ d c n, B d → fs.lookup d c = .ok n → c ≠ ['.', '.'] → B n)
    (hr : TrivialRoot root ∨ root.head? = some '/')
    (hagain : ∀ path, Good root path → ∀ u, again path = .ok u → B u) (n : Nat)
    (h : WalkOk fs B cur p) (hc : curpath.head? = some '/')
    (hw : walkLoop fs root follow again n cur curpath p = .ok u) : B u := by
  induction n generalizing cur curpath p with
  | zero =>
    obtain rfl := Except.ok.inj hw
    exact h.here
  | succ n ih =>
    unfold walkLoop at hw
    by_cases hp : p = []
    · rw [if_pos hp] at hw
      obtain rfl := Except.ok.inj hw
      exact h.here
    rw [if_neg hp] at hw
    by_cases he : (pathNextComponent p).1 = []
    · rw [if_pos he] at hw
      refine ih (.of_names h.here ?_) hc hw
      have hnil : pathNextComponent p = ([], skipSlashes p) := by
        unfold pathNextComponent at he ⊢
        dsimp only at he ⊢
        rw [he]
        rfl
      obtain ⟨hcs, -⟩ | ⟨c, cs, -, hne, hcomp, -⟩ := pathNextComponent_spec p
      · rw [hnil, components_skipSlashes, hcs]
        exact nofun
      · rw [he] at hcomp
        exact absurd (eq_of_take_eq hcomp.symm (by decide)) hne
    rw [if_neg he] at hw
    obtain ⟨hdir, hw⟩ := of_exit hw nofun
    cases hl : fs.lookup cur (pathNextComponent p).1 with
    | error e =>
      rw [hl] at hw
      cases hw
    | ok next =>
      rw [hl] at hw
      dsimp only at hw
      split_ifs at hw with hlink
      · cases hread : fs.readlink next with
        | error e =>
          rw [hread] at hw
          cases hw
        | ok target =>
          rw [hread] at hw
          dsimp only at hw
          cases hf : followLink root curpath (target.take (vfsMaxPath - 1))
            (skipSlashes (pathNextComponent p).2) with
          | error e =>
            rw [hf] at hw
            cases hw
          | ok full =>
            rw [hf] at hw
            exact hagain full (followLink_good hr hc hf) u hw
      · exact ih (h.next ht hB he hl) (head_appendName hc _) hw

/-- Over components without a link the walk goes as the plain one, or fails. -/
theorem walkLoop_plain {cs ds : List (List Char)} {v : V}
    {n : Nat} (hp : components p = cs ++ ds) (hlen : ∀ c ∈ cs, c.length ≤ vfsMaxName - 1)
    (hw : plainWalk fs v cs = some u) (hn : p.length < n) (hc : curpath.head? = some '/') :
    (∃ e, walkLoop fs root follow again n v curpath p = .error e) ∨
    ∃ n' curpath' p', curpath'.head? = some '/' ∧ components p' = ds ∧
      walkLoop fs root follow again n v curpath p =
      walkLoop fs root follow again n' u curpath' p' := by
  induction cs generalizing v n curpath p with
  | nil =>
    cases hw
    exact .inr ⟨n, curpath, p, hc, hp, rfl⟩
  | cons c cs ih =>
    obtain ⟨n, rfl⟩ : ∃ k, n = k + 1 := ⟨n - 1, by omega⟩
    obtain ⟨hnil, -⟩ | ⟨c', cs', hp', hne, hcomp, hrest, hlt⟩ := pathNextComponent_spec p
    · rw [hnil] at hp
      cases hp
    obtain ⟨rfl, rfl⟩ : c = c' ∧ cs ++ ds = cs' := by
      rw [hp', cons_append, cons.injEq] at hp
      exact ⟨hp.1.symm, hp.2.symm⟩
    have hle := hlen c mem_cons_self
    rw [take_of_length_le hle] at hcomp
    rw [if_pos (drop_eq_nil_of_le hle)] at hrest
    rw [walkLoop]
    dsimp only
    rw [if_neg (fun he => by rw [he, components_nil] at hp'; cases hp'), hcomp, if_neg hne]
    by_cases hdir : fs.type v ≠ .dir
    · rw [if_pos hdir]
      exact .inl ⟨_, rfl⟩
    rw [if_neg hdir]
    unfold plainWalk at hw
    cases hl : fs.lookup v c with
    | error e => exact .inl ⟨e, rfl⟩
    | ok next =>
      rw [hl] at hw
      dsimp only at hw ⊢
      obtain ⟨hsym, hw⟩ := of_exit hw nofun
      rw [if_neg fun h => hsym h.1]
      have hskip := length_skipSlashes (pathNextComponent p).2
      exact ih (n := n) (by rw [components_skipSlashes, hrest])
        (fun d hd => hlen d (mem_cons_of_mem _ hd)) hw
        (by omega) (head_appendName hc c)

/-- The longest mount point that matches. -/
theorem findMountLoop_spec (h : findMountLoop path mounts best = some m) :
    ((m ∈ mounts ∧ mountMatches path m.1 = true) ∨ best = some m) ∧
    (∀ m' ∈ mounts, mountMatches path m'.1 = true → m'.1.length ≤ m.1.length) ∧
    ∀ b ∈ best, b.1.length ≤ m.1.length := by
  induction mounts generalizing best with
  | nil =>
    refine ⟨.inr h, nofun, fun b hb => ?_⟩
    obtain rfl := Option.some.inj (hb.symm.trans h)
    exact Nat.le_refl _
  | cons x mounts ih =>
    unfold findMountLoop at h
    split_ifs at h with hx
    · obtain ⟨hm, hall, hbest⟩ := ih h
      rw [Bool.and_eq_true, decide_eq_true_eq] at hx
      refine ⟨.inl ?_, ?_, fun b hb => ?_⟩
      · rcases hm with ⟨h1, h2⟩ | h1
        · exact ⟨mem_cons_of_mem _ h1, h2⟩
        · cases h1
          exact ⟨mem_cons_self, hx.1⟩
      · exact forall_mem_cons.mpr ⟨fun _ => hbest x rfl, hall⟩
      · have hle := hbest x rfl
        have hlt := hx.2
        rw [hb, Option.map_some, Option.getD_some] at hlt
        omega
    · obtain ⟨hm, hall, hbest⟩ := ih h
      refine ⟨hm.imp_left fun h1 => ⟨mem_cons_of_mem _ h1.1, h1.2⟩, ?_, hbest⟩
      refine forall_mem_cons.mpr ⟨fun hmx => ?_, hall⟩
      rw [hmx, Bool.true_and, decide_eq_true_eq] at hx
      cases best with
      | none => exact Nat.le_trans (Nat.le_of_not_lt hx) (Nat.zero_le _)
      | some b => exact Nat.le_trans (Nat.le_of_not_lt hx) (hbest b rfl)

theorem findMountLoop_congr {path' : List Char}
    (h : ∀ m ∈ mounts, mountMatches path m.1 = mountMatches path' m.1) :
    findMountLoop path mounts best = findMountLoop path' mounts best := by
  induction mounts generalizing best with
  | nil => rfl
  | cons x mounts ih =>
    have hrest := fun m hm => h m (mem_cons_of_mem _ hm)
    unfold findMountLoop
    rw [h x mem_cons_self, ih hrest, ih hrest]

theorem mountMatches_split (h : mountMatches path mount = true) :
    ∃ q, path = mount ++ q ∧ (q = [] ∨ q.head? = some '/' ∨ mount.length = 1) := by
  unfold mountMatches at h
  rw [Bool.and_eq_true, isPrefixOf_iff_prefix] at h
  obtain ⟨⟨q, rfl⟩, hc⟩ := h
  refine ⟨q, rfl, ?_⟩
  rw [head_after] at hc
  simpa [or_comm, or_left_comm, or_assoc] using hc

theorem mountMatches_append (h : q = [] ∨ q.head? = some '/' ∨ mount.length = 1) :
    mountMatches (mount ++ q) mount = true := by
  unfold mountMatches
  rw [head_after, Bool.and_eq_true, isPrefixOf_iff_prefix]
  refine ⟨prefix_append _ _, ?_⟩
  rcases h with h | h | h
  · simp [h]
  · simp [h]
  · simp [h]

theorem components_mount (hp : (mount ++ q).head? = some '/')
    (h : q = [] ∨ q.head? = some '/' ∨ mount.length = 1) :
    components (mount ++ q) = components mount ++ components q := by
  rcases h with h | h | h
  · exact components_append (.inl h)
  · exact components_append (.inr h)
  · obtain ⟨c, rfl⟩ := length_eq_one_iff.mp h
    have hc : c = '/' := by simpa using hp
    subst hc
    rfl

theorem RootDir.rooted (h : RootDir fs root top) : TrivialRoot root ∨ root.head? = some '/' := by
  cases h with
  | whole ht _ => exact .inl ht
  | dir names _ _ hr => exact .inr (by rw [hr]; rfl)

theorem append_split {α : Type*} {a b p q : List α} (h : a ++ p = b ++ q)
    (hle : b.length ≤ a.length) :
    ∃ r, a = b ++ r ∧ q = r ++ p := by
  obtain ⟨r, rfl⟩ := prefix_of_prefix_length_le ⟨q, h.symm⟩ ⟨p, rfl⟩ hle
  rw [append_assoc] at h
  exact ⟨r, rfl, (append_cancel_left h).symm⟩

theorem findMount_root (hps : p = [] ∨ p.head? = some '/')
    (h : findMount fs.mounts (root ++ p) = some m) (hle : m.1.length ≤ root.length) :
    findMount fs.mounts root = some m := by
  obtain ⟨-, hall, -⟩ := findMountLoop_spec h
  rw [← h]
  refine findMountLoop_congr fun m' hm' => ?_
  rw [Bool.eq_iff_iff]
  constructor
  · intro hmatch
    obtain ⟨q, hq, hb⟩ := mountMatches_split hmatch
    rw [hq, append_assoc]
    refine mountMatches_append ?_
    rcases hb with rfl | hb | hb
    · rcases hps with rfl | hps
      · exact .inl rfl
      · exact .inr (.inl hps)
    · obtain ⟨l, rfl⟩ := List.head?_eq_some_iff.mp hb
      exact .inr (.inl rfl)
    · exact .inr (.inr hb)
  · intro hmatch
    have hlen := Nat.le_trans (hall m' hm' hmatch) hle
    obtain ⟨q, hq, hb⟩ := mountMatches_split hmatch
    obtain ⟨q', hr, hq'⟩ := append_split hq hlen
    rw [hr]
    refine mountMatches_append ?_
    cases q' with
    | nil => exact .inl rfl
    | cons x q' =>
      rw [hq'] at hb
      rcases hb with hb | hb | hb
      · cases hb
      · exact .inr (.inl hb)
      · exact .inr (.inr hb)

/-- The walk starts below the root, or comes to it by plain components. -/
theorem start_below (hr : RootDir fs root top) (hg : Good root path) (hh : path.head? = some '/')
    (hm : findMount fs.mounts path = some m) :
    (Below fs root top m.2 ∧ ∀ c ∈ components (path.drop m.1.length), IsName c) ∨
    ∃ cs ds, components (path.drop m.1.length) = cs ++ ds ∧ (∀ c ∈ cs, c.length ≤ vfsMaxName - 1) ∧
      (∀ c ∈ ds, IsName c) ∧ plainWalk fs m.2 cs = some top := by
  obtain ⟨hmem, hall, -⟩ := findMountLoop_spec hm
  obtain ⟨hmem, hmatch⟩ := hmem.resolve_right nofun
  obtain ⟨q, hq, hb⟩ := mountMatches_split hmatch
  have hdrop : path.drop m.1.length = q := by rw [hq, drop_left]
  have hmem' : ∀ c ∈ components q, c ∈ components path := by
    rw [hq] at hh ⊢
    rw [components_mount hh hb]
    exact fun c hc => mem_append_right _ hc
  rw [hdrop]
  cases hr with
  | whole ht hm0 =>
    refine .inl ⟨.mount m hmem (.inl ht), fun c hc => ?_⟩
    have hc' := hmem' c hc
    rcases hg with ⟨-, hn⟩ | ⟨p, hp, hps, hn⟩
    · exact hn c hc'
    · rw [hp, components_append hps] at hc'
      rcases mem_append.mp hc' with h0 | h0
      · rcases ht with rfl | rfl
        · rw [components_nil] at h0
          cases h0
        · rw [components_slash, components_nil] at h0
          cases h0
      · exact hn c h0
  | dir names hnames hne hroot hlen m0 hm0 hw =>
    have hnt : ¬TrivialRoot root := by
      have hrc : components root ≠ [] := by
        rw [hroot, components_absolutePath hnames]
        exact fun he => hne (reverse_eq_nil_iff.mp he)
      rintro (h0 | h0)
      · exact hrc (by rw [h0, components_nil])
      · exact hrc (by rw [h0, components_slash, components_nil])
    obtain ⟨p, hp, hps, hn⟩ := hg.resolve_left fun h => hnt h.1
    have hrootNames : ∀ c ∈ components root, IsName c := by
      rw [hroot, components_absolutePath hnames]
      exact fun c hc => hnames c (mem_reverse.mp hc)
    by_cases hle : m.1.length ≤ root.length
    · -- the mount that the root is on
      rw [hp] at hm
      have hsame := findMount_root hps hm hle
      obtain rfl := Option.some.inj (hsame.symm.trans hm0)
      obtain ⟨q', hr', hq'⟩ := append_split (hp.symm.trans hq) hle
      have hdr : root.drop m.1.length = q' := by
        conv_lhs => rw [hr']
        exact drop_left
      rw [hdr] at hw
      refine .inr ⟨components q', components p, ?_, fun c hc => ?_, hn, hw⟩
      · rw [hq', components_append hps]
      · have h1 := length_of_mem_components hc
        have h2 := congrArg length hr'
        rw [length_append] at h2
        omega
    · -- a mount under the root
      refine .inl ⟨.mount m hmem (.inr ?_), fun c hc => ?_⟩
      · obtain ⟨a, ha, hpa⟩ := append_split (hq.symm.trans hp) (by omega)
        unfold underRoot
        rw [ha, List.getElem?_append_right (Nat.le_refl _), Nat.sub_self, ← List.head?_eq_getElem?,
          Bool.and_eq_true, isPrefixOf_iff_prefix]
        refine ⟨prefix_append _ _, ?_⟩
        cases a with
        | nil => rfl
        | cons x a =>
          rw [hpa] at hps
          rcases hps with hps | hps
          · cases hps
          · have hx : x = '/' := by simpa using hps
            rw [hx]
            rfl
      · have hc' := hmem' c hc
        rw [hp, components_append hps] at hc'
        exact (mem_append.mp hc').elim (hrootNames c) (hn c)

/-- Every lookup of a path of the root ends below it. -/
theorem lookupPath_below (ht : IsTree fs) (hr : RootDir fs root top) (n : Nat)
    (hg : Good root path) (h : lookupPath fs root follow n path = .ok u) : Below fs root top u := by
  induction n generalizing path u with
  | zero =>
    unfold lookupPath at h
    split_ifs at h
  | succ n ih =>
    unfold lookupPath at h
    obtain ⟨hh, h⟩ := of_exit h nofun
    have hh : path.head? = some '/' := not_not.mp hh
    cases hm : findMount fs.mounts path with
    | none =>
      rw [hm] at h
      cases h
    | some m =>
      rw [hm] at h
      dsimp only at h
      have hstart := start_below hr hg hh hm
      have hB : ∀ d c n, Below fs root top d → fs.lookup d c = .ok n → c ≠ ['.', '.'] →
        Below fs root top n :=
        fun d c n hd hn hc => .child d c n hd hn hc
      by_cases hrel : skipSlashes (path.drop m.1.length) = []
      · rw [if_pos hrel] at h
        obtain rfl := Except.ok.inj h
        have hnil : components (path.drop m.1.length) = [] := by
          rw [← components_skipSlashes, hrel, components_nil]
        obtain ⟨hb, -⟩ | ⟨cs, ds, hcs, -, -, hw⟩ := hstart
        · exact hb
        · rw [hnil] at hcs
          obtain ⟨rfl, -⟩ := append_eq_nil_iff.mp hcs.symm
          cases hw
          exact .top
      · rw [if_neg hrel] at h
        have hcur :
          (startPath (if path.take (min (path.length - (skipSlashes (path.drop m.1.length)).length)
            (vfsMaxPath - 1)) = [] then ['/'] else path.take (min (path.length -
            (skipSlashes (path.drop m.1.length)).length) (vfsMaxPath - 1)))).head? = some '/' := by
          refine head_startPath ?_
          split_ifs with hb
          · rfl
          · rw [List.head?_take]
            split_ifs with h0
            · rw [h0] at hb
              exact absurd rfl hb
            · exact hh
        obtain ⟨hb, hn⟩ | ⟨cs, ds, hcs, hlen, hn, hw⟩ := hstart
        · rw [← components_skipSlashes] at hn
          exact walkLoop_below ht hB hr.rooted (fun p hp u hu => ih hp hu) _
            (.of_names hb hn) hcur h
        · rw [← components_skipSlashes] at hcs
          obtain ⟨e, he⟩ | ⟨n', curpath', p', hc', hp', he⟩ :=
            walkLoop_plain hcs hlen hw (Nat.lt_succ_self _) hcur
          · rw [he] at h
            cases h
          · rw [he] at h
            exact walkLoop_below ht hB hr.rooted (fun p hp u hu => ih hp hu) _
              (.of_names .top (hp' ▸ hn)) hc' h

/-- What relative paths are taken from lies under the root. -/
def BaseUnder (t : PathTask) : Prop :=
  (TrivialRoot t.root ∧ t.base.head? = some '/') ∨ underRoot t.base t.root = true

/-- What the task's view of a path is resolved to. -/
theorem resolveView_ok {root' view : List Char} (hb : BaseUnder t)
    (h : resolveView t path = .ok (root', view)) :
    view.head? = some '/' ∧ view.length < pathBuf ∧
      (root' = t.root ∨ root' = [] ∧ TrivialRoot t.root) := by
  unfold resolveView at h
  by_cases habs : path.head? = some '/'
  · rw [if_pos habs] at h
    split_ifs at h with hlen
    obtain ⟨rfl, rfl⟩ := Prod.mk.inj (Except.ok.inj h)
    exact ⟨habs, Nat.lt_of_not_le hlen, .inl rfl⟩
  rw [if_neg habs] at h
  dsimp only at h
  -- what is left of the base is empty or absolute
  have hbase : (t.base.drop (syscallRootPrefix t.base t.root) = [] ∨
      (t.base.drop (syscallRootPrefix t.base t.root)).head? = some '/') ∧
      ((if syscallRootPrefix t.base t.root = 0 then [] else t.root) = t.root ∨
        (if syscallRootPrefix t.base t.root = 0 then [] else t.root) = [] ∧
        TrivialRoot t.root) := by
    unfold syscallRootPrefix
    by_cases hu : t.root ≠ [] ∧ underRoot t.base t.root = true
    · rw [if_pos hu, if_neg fun h0 => hu.1 (length_eq_zero_iff.mp h0)]
      obtain ⟨p, hp, hps⟩ := underRoot_split hu.2
      rw [hp, drop_left]
      exact ⟨hps, .inl rfl⟩
    rw [if_neg hu, if_pos rfl, drop_zero]
    rcases hb with ⟨ht, hh⟩ | hun
    · exact ⟨.inr hh, .inr ⟨rfl, ht⟩⟩
    · have hnil : t.root = [] := by
        by_contra hne
        exact hu ⟨hne, hun⟩
      obtain ⟨p, hp, hps⟩ := underRoot_split hun
      rw [hnil, nil_append] at hp
      rw [hp]
      exact ⟨hps, .inl hnil.symm⟩
  obtain ⟨hbase, hroot⟩ := hbase
  generalize hstart : (if t.base.drop (syscallRootPrefix t.base t.root) = [] then ['/']
    else t.base.drop (syscallRootPrefix t.base t.root)) = start at h
  have hhead : start.head? = some '/' := by
    subst hstart
    split_ifs with h0
    · rfl
    · exact hbase.resolve_left h0
  obtain ⟨hlen, h⟩ := of_exit h nofun
  obtain ⟨rfl, rfl⟩ := Prod.mk.inj (Except.ok.inj h)
  have h512 : vfsMaxPath = pathBuf := rfl
  refine ⟨?_, ?_, hroot⟩
  · rw [List.head?_append]
    split_ifs
    · rw [hhead]
      rfl
    · rw [List.head?_append, hhead]
      rfl
  · rw [length_append]
    split_ifs
    · omega
    · rw [length_append, length_singleton]
      omega

theorem compatRedirect_cases (fs : Vfs V) (root pre p : List Char) (max : Nat) (croot : List Char)
    (libdirs : List (List Char)) : compatRedirect fs root pre p max croot libdirs = p ∨
    p.head? = some '/' ∧ compatRedirect fs root pre p max croot libdirs = croot ++ p := by
  unfold compatRedirect
  by_cases h1 : p.head? ≠ some '/' ∨ p.length < 2
  · rw [if_pos h1]
    exact .inl rfl
  have hh : p.head? = some '/' := by
    by_contra hne
    exact h1 (.inl hne)
  split_ifs
  · exact .inl rfl
  · exact .inl rfl
  · split
    · split_ifs
      · exact .inl rfl
      · exact .inr ⟨hh, rfl⟩
    · dsimp only
      split_ifs
      · exact .inl rfl
      · exact .inr ⟨hh, rfl⟩

theorem compat_names (c : List Char) (h : c ∈ components "/compat/linux".toList ∨
    c ∈ components "/compat/freebsd".toList) : IsName c := by
  have h1 : components "/compat/linux".toList = ["compat".toList, "linux".toList] := by decide
  have h2 : components "/compat/freebsd".toList = ["compat".toList, "freebsd".toList] := by decide
  rw [h1, h2] at h
  simp only [mem_cons, not_mem_nil, or_false] at h
  rcases h with (rfl | rfl) | (rfl | rfl) <;> exact ⟨by decide, by decide, by decide, by decide⟩

theorem abiCompatRedirect_names {pre : List Char} {max : Nat} {abi : Abi} (hh : p.head? = some '/')
    (hn : ∀ c ∈ components p, IsName c) :
    (abiCompatRedirect fs root pre p max abi).head? = some '/' ∧
    ∀ c ∈ components (abiCompatRedirect fs root pre p max abi), IsName c := by
  have hunder : ∀ croot libdirs, croot.head? = some '/' → (∀ c ∈ components croot, IsName c) →
      (compatRedirect fs root pre p max croot libdirs).head? = some '/' ∧
      ∀ c ∈ components (compatRedirect fs root pre p max croot libdirs), IsName c := by
    intro croot libdirs hc hnames
    obtain he | ⟨-, he⟩ := compatRedirect_cases fs root pre p max croot libdirs
    · rw [he]
      exact ⟨hh, hn⟩
    · rw [he, components_append (.inr hh), List.head?_append, hc]
      exact ⟨rfl, fun c hc => (mem_append.mp hc).elim (hnames c) (hn c)⟩
  cases abi with
  | cervus => exact ⟨hh, hn⟩
  | linux => exact hunder _ _ rfl fun c hc => compat_names c (.inl hc)
  | freebsd => exact hunder _ _ rfl fun c hc => compat_names c (.inr hc)

/-- A resolved path is one of the root. -/
theorem syscallResolvePath_good {dst : List Char} {max : Nat} (hb : BaseUnder t)
    (h : syscallResolvePath fs t path max = .ok dst) : Good t.root dst := by
  unfold syscallResolvePath at h
  obtain ⟨-, h⟩ := of_exit h nofun
  obtain ⟨-, h⟩ := of_exit h nofun
  cases hv : resolveView t path with
  | error e =>
    rw [hv] at h
    cases h
  | ok r =>
    obtain ⟨root', view⟩ := r
    rw [hv] at h
    dsimp only at h
    obtain ⟨hlen, h⟩ := of_exit h nofun
    cases hreq : pathRequireDirs fs t.root (root' ++ view) with
    | error e =>
      rw [hreq] at h
      cases h
    | ok _ =>
      rw [hreq] at h
      obtain ⟨hhead, hvlen, hroot⟩ := resolveView_ok hb hv
      obtain ⟨heq, hnames, -⟩ := syscallPathNormalize_eq hhead hvlen
      have hnorm : (syscallPathNormalize view).head? = some '/' ∧
          ∀ c ∈ components (syscallPathNormalize view), IsName c := by
        rw [heq, components_absolutePath hnames]
        exact ⟨rfl, fun c hc => hnames c (mem_reverse.mp hc)⟩
      generalize hp : (if path.head? = some '/' ∧ t.abi ≠ .cervus then
        abiCompatRedirect fs t.root root' (syscallPathNormalize view) max t.abi
          else syscallPathNormalize view) = p at h
      have hpn : p.head? = some '/' ∧ ∀ c ∈ components p, IsName c := by
        subst hp
        split_ifs
        · exact abiCompatRedirect_names hnorm.1 hnorm.2
        · exact hnorm
      obtain rfl := Except.ok.inj h
      rcases hroot with rfl | ⟨rfl, ht⟩
      · split_ifs
        · exact .inr ⟨[], (append_nil _).symm, .inl rfl, by rw [components_nil]; exact nofun⟩
        · exact .inr ⟨p, rfl, .inr hpn.1, hpn.2⟩
      · rw [if_neg fun hc => hc.1 rfl, nil_append]
        exact .inl ⟨ht, hpn.2⟩

/-- Whatever path a task names, the node it gets lies under the task's root. -/
theorem chroot_contained {t : PathTask} {top node : V} {dst : List Char} {max : Nat}
    (htree : IsTree fs) (hroot : RootDir fs t.root top) (hbase : BaseUnder t)
    (hres : syscallResolvePath fs t path max = .ok dst)
    (hlook : vfsLookup fs t.root dst = .ok node) : Below fs t.root top node :=
  lookupPath_below htree hroot vfsSymlinkMax (syscallResolvePath_good hbase hres) hlook

def jail : Vfs Nat where
  type n := if n = 2 then .symlink else .dir
  lookup n c :=
    if n = 0 ∧ c = "jail".toList then .ok 1
    else if n = 0 ∧ c = "etc".toList then .ok 3
    else if n = 1 ∧ c = "l".toList then .ok 2
    else if n = 1 ∧ c = "etc".toList then .ok 4
    else .error (-Errno.enoent)
  readlink _ := .ok "/../etc".toList
  stat n := .ok (if n = 2 then .symlink else .dir)
  mounts := [("/".toList, 0)]

theorem jail_tree : IsTree jail := by
  have hdots : ∀ c, c = ['.'] ∨ c = ['.', '.'] → ∀ d, jail.lookup d c = .error (-Errno.enoent) := by
    rintro c (rfl | rfl) d <;> simp [jail]
  refine ⟨fun d n h => ?_, fun d c n u _ _ _ h => ?_⟩
  · rw [hdots _ (.inl rfl)] at h
    cases h
  · rw [hdots _ (.inr rfl)] at h
    cases h

def jailed : PathTask := ⟨"/jail".toList, "/jail".toList, none, .cervus⟩

theorem chroot_contained_jail : syscallResolvePath jail jailed "l/../l".toList 512 =
    .ok "/jail/l".toList ∧
    vfsLookup jail jailed.root "/jail/l".toList = .ok 1 ∧ Below jail jailed.root 1 1 := by
  have hres : syscallResolvePath jail jailed "l/../l".toList 512 = .ok "/jail/l".toList := by
    decide +kernel
  have hlook : vfsLookup jail jailed.root "/jail/l".toList = .ok 1 := by decide +kernel
  have hroot : RootDir jail jailed.root 1 := by
    refine .dir ["jail".toList] ?_ (by decide) (by decide) (by decide) ("/".toList, 0) (by decide)
      (by decide)
    rintro c hc
    obtain rfl := mem_singleton.mp hc
    exact ⟨by decide, by decide, by decide, by decide⟩
  exact ⟨hres, hlook, chroot_contained jail_tree hroot (.inr (by decide)) hres hlook⟩

end

end Cervus.Fs
