import Yotta.Server.Url

/-!
# Which file a request opens

The name `parse_url` (`yotta.cpp`, lines 97–136) passes to `open`, for every
request target.

Results:
* `open_rooted_inside`: for a rooted target it begins with `./` and has no
  component `..`, whatever `clean_path` has left behind the cleaned path.
* `open_relative_inside_iff`: for a target that is not rooted, when reading the
  name from the left leaves the working directory.
* `open_eq_expected_iff`: for a rooted target, when the name is the cleaned path.
-/

namespace Yotta.Server

open Yotta.Bytes Yotta.Http Yotta.Lexical

/-! ## The path in a target -/

theorem isPrefix_queryCut (target : List UInt8) : queryCut target <+: target :=
  List.takeWhile_prefix _

theorem zero_notMem_queryCut {target : List UInt8} (h0 : 0 ∉ target) : 0 ∉ queryCut target :=
  fun h => h0 ((isPrefix_queryCut target).mem h)

theorem lengthOk_iff {path : List UInt8} : lengthOk path ↔ path.length ≤ 1004 ∧ path ≠ [] := by
  rw [lengthOk, Bool.and_eq_true, decide_eq_true_eq, decide_eq_true_eq, ne_eq,
    List.length_eq_zero_iff]
  rfl

theorem head?_queryCut {target : List UInt8} (hne : queryCut target ≠ []) :
    (queryCut target).head? = target.head? := by
  obtain ⟨t, ht⟩ := isPrefix_queryCut target
  have hhead : (queryCut target ++ t).head? = (queryCut target).head? :=
    List.head?_append_of_ne_nil _ hne
  rwa [ht, eq_comm] at hhead

theorem isRooted_queryCut {target : List UInt8} (hok : lengthOk (queryCut target)) :
    isRooted slash (queryCut target) = isRooted slash target := by
  rw [isRooted, isRooted, head?_queryCut (lengthOk_iff.mp hok).2]

/-! ## Normal forms -/

/-- The stack of a path. -/
abbrev stackOf (p : List UInt8) : List (List UInt8) :=
  resolve dot (isRooted slash p) (p.splitOn slash)

theorem isStack_stackOf (p : List UInt8) : IsStack slash dot (isRooted slash p) (stackOf p) :=
  isStack_resolve fun _ hc => sep_notMem_of_mem_splitOn hc

theorem normalForm_rooted {p : List UInt8} (h : isRooted slash p = true) :
    normalForm slash dot p = render slash true (stackOf p) := by
  rw [normalForm, stackOf, h, if_neg]
  simp [render]

theorem normalForm_relative {p : List UInt8} (h : isRooted slash p = false) :
    normalForm slash dot p =
      if stackOf p = [] then [dot] else render slash false (stackOf p) := by
  have hne := (isStack_stackOf p).render_ne_nil
  simp only [stackOf, h] at hne ⊢
  rw [normalForm, h]
  by_cases hs : resolve dot false (p.splitOn slash) = []
  · rw [hs, if_pos rfl, if_pos (by simp)]
  · rw [if_neg hs, if_neg (hne hs)]

/-! ## Rooted targets -/

/-- A rooted path that is not `/`, continued by a text without `..` behind its
first component, has no component `..`. -/
theorem up_notMem_rooted {p s : List UInt8} (h : isRooted slash p = true) (hne : stackOf p ≠ [])
    (hs : TailFree slash dot s) : [dot, dot] ∉ (normalForm slash dot p ++ s).splitOn slash := by
  have hstack := isStack_stackOf p
  obtain ⟨f, t, hsplit⟩ := exists_splitOn_eq_cons slash s
  have ht : [dot, dot] ∉ t := by
    intro hmem
    exact hs _ (by rw [hsplit]; exact hmem) rfl
  rw [splitOn_append_glue hsplit, normalForm_rooted h,
    splitOn_render hne (hstack.sep_notMem (by decide))]
  obtain ⟨names, k, heq, hnames, hk⟩ := hstack
  obtain rfl := hk h
  rw [List.replicate_zero, List.append_nil] at heq
  have hne' : (stackOf p).reverse ≠ [] := by simpa using hne
  have hglue := up_notMem_glue
    (by intro n hn; exact hnames n (by rw [← heq]; simpa using hn)) hne' f ht
  obtain ⟨c, cs, hc⟩ := List.exists_cons_of_ne_nil hne'
  rw [hc] at hglue ⊢
  simpa [glue] using hglue

theorem normalForm_eq_slash_iff {p : List UInt8} (h : isRooted slash p = true) :
    normalForm slash dot p = [slash] ↔ stackOf p = [] := by
  rw [normalForm_rooted h]
  constructor
  · intro hr
    by_contra hne
    have hcs := @splitOn_render _ _ true _ _ hne ((isStack_stackOf p).sep_notMem (by decide))
    rw [hr, if_pos rfl] at hcs
    have hrev : (stackOf p).reverse = [[]] := by
      simpa [List.splitOn_cons_eq_if_modifyHead] using hcs.symm
    exact (isStack_stackOf p).ne_nil [] (by rw [← List.mem_reverse, hrev]; simp) rfl
  · intro hs
    rw [hs]
    rfl

theorem length_normalForm_rooted {p : List UInt8} (h : isRooted slash p = true) :
    (normalForm slash dot p).length ≠ 1 ↔ normalForm slash dot p ≠ [slash] := by
  have hhead : (normalForm slash dot p).head? = some slash := by
    rw [normalForm_rooted h]
    rfl
  refine not_congr ⟨fun h1 => ?_, fun h1 => by rw [h1]; rfl⟩
  obtain ⟨c, hc⟩ := List.length_eq_one_iff.mp h1
  rw [hc] at hhead ⊢
  simpa using hhead

/-- The name for a rooted path is `.` in front of a path without `..`. -/
theorem urlName_rooted {p : List UInt8} (h : isRooted slash p = true) :
    ∃ x, urlName p (residue slash dot p) = dot :: slash :: x ∧
      [dot, dot] ∉ (slash :: x).splitOn slash := by
  have hhead : ∀ s, ∃ x, normalForm slash dot p ++ s = slash :: x := by
    intro s
    exact ⟨[slash].intercalate (stackOf p).reverse ++ s, by rw [normalForm_rooted h]; rfl⟩
  unfold urlName
  split_ifs with h1 h2
  · have hne : stackOf p ≠ [] := by
      rw [ne_eq, ← normalForm_eq_slash_iff h, ← ne_eq, ← length_normalForm_rooted h]
      exact h1.2
    obtain ⟨x, hx⟩ := hhead (slash :: ascii "index.html")
    refine ⟨x, by rw [List.cons_append, hx], ?_⟩
    rw [← hx]
    exact up_notMem_rooted h hne (by unfold TailFree; decide)
  · exact ⟨ascii "index.html", rfl, by decide⟩
  · obtain ⟨s, hs, htf⟩ := residue_eq p
    obtain ⟨x, hx⟩ := hhead s
    refine ⟨x, by rw [hs, hx], ?_⟩
    rw [← hx]
    exact up_notMem_rooted h (by rwa [ne_eq, ← normalForm_eq_slash_iff h]) htf

/-- What is known of a target that is not rejected for its length. -/
theorem openName_eq {target : List UInt8} (h0 : 0 ∉ target) (hok : lengthOk (queryCut target)) :
    openName target = urlName (queryCut target) (residue slash dot (queryCut target)) ∧
      pathView target = urlName (queryCut target) (normalForm slash dot (queryCut target)) := by
  obtain ⟨hlen, hne⟩ := lengthOk_iff.mp hok
  exact normalizeUrl_spec hlen hne (zero_notMem_queryCut h0)

/-- **No traversal for rooted targets.** -/
theorem open_rooted_inside {target : List UInt8} (hroot : isRooted slash target = true)
    (h0 : 0 ∉ target) (hok : lengthOk (queryCut target)) :
    ascii "./" <+: openName target ∧ ascii ".." ∉ (openName target).splitOn slash := by
  obtain ⟨x, hx, hup⟩ := urlName_rooted ((isRooted_queryCut hok).trans hroot)
  rw [(openName_eq h0 hok).1, hx]
  refine ⟨⟨x, rfl⟩, ?_⟩
  have hcs : (dot :: slash :: x).splitOn slash = [dot] :: x.splitOn slash := by
    simp [List.splitOn_cons_eq_if_modifyHead, show dot ≠ slash by decide]
  have hcs' : (slash :: x).splitOn slash = [] :: x.splitOn slash := by
    simp [List.splitOn_cons_eq_if_modifyHead]
  rw [hcs'] at hup
  rw [hcs, List.mem_cons, not_or]
  exact ⟨by decide, fun hmem => hup (List.mem_cons_of_mem _ hmem)⟩

theorem open_rooted_inside_up :
    ascii "./" <+: openName (ascii "/ab/cd/../../..") ∧
      ascii ".." ∉ (openName (ascii "/ab/cd/../../..")).splitOn slash :=
  open_rooted_inside (by decide) (by decide) (by decide)

/-! ## The name of a rooted target -/

/-- The name of the file a path names: `.` and its normal form, with the trailing
`/` put back and `index.html` behind it. -/
def expectedName (path : List UInt8) : List UInt8 :=
  let nf := normalForm slash dot path
  let named := dot :: nf ++ if path.getLast? = some slash ∧ nf ≠ [slash] then [slash] else []
  if named.getLast? = some slash then named ++ ascii "index.html" else named

/-- Without leftovers the name is the expected one. -/
theorem urlName_normalForm {p : List UInt8} (h : isRooted slash p = true) :
    urlName p (normalForm slash dot p) = expectedName p := by
  unfold urlName expectedName
  simp only [length_normalForm_rooted h]
  by_cases h1 : p.getLast? = some slash ∧ normalForm slash dot p ≠ [slash]
  · have hlast : (dot :: normalForm slash dot p ++ [slash]).getLast? = some slash :=
      List.getLast?_concat
    simp only [if_pos h1, if_pos hlast]
    simp
  · rw [if_neg h1]
    by_cases h2 : normalForm slash dot p = [slash]
    · rw [if_pos h2, h2]
      simp [ascii]
    · rw [if_neg h2]
      obtain ⟨c, hc, hcs⟩ := getLast?_normalForm h2
      have hlast : p.getLast? ≠ some slash := fun h => h1 ⟨h, h2⟩
      simp [hlast, List.getLast?_cons, hc, hcs]

/-- No run of leading elements of `path` has a longer normal form than `path`
itself. -/
def NoLongerFront (path : List UInt8) : Prop :=
  ∀ cs, cs <+: path.splitOn slash →
    (render slash true (resolve dot true cs)).length ≤ (normalForm slash dot path).length

theorem residue_eq_normalForm_iff {p : List UInt8} (h : isRooted slash p = true) :
    residue slash dot p = normalForm slash dot p ↔ NoLongerFront p := by
  have hres : residue slash dot p = (trail slash dot true (p.splitOn slash)).2 := by
    rw [residue, h, trail_fst, if_neg]
    simp [render]
  rw [NoLongerFront, ← length_trail_le_iff (fun c hc => sep_notMem_of_mem_splitOn hc), ← hres]
  obtain ⟨s, hs, -⟩ := residue_eq p
  rw [hs, List.append_right_eq_self, List.length_append]
  constructor
  · rintro rfl
    simp
  · intro hle
    exact List.length_eq_zero_iff.mp (by omega)

/-- **The file opened is the file named**, and looked up by the same name, exactly
for the targets that end in `/`, name the root, or have no run of leading
elements with a longer normal form than the whole. -/
theorem open_eq_expected_iff {target : List UInt8} (hroot : isRooted slash target = true)
    (h0 : 0 ∉ target) (hok : lengthOk (queryCut target)) :
    (openName target = expectedName (queryCut target) ∧ pathView target = openName target) ↔
      (queryCut target).getLast? = some slash ∨
        normalForm slash dot (queryCut target) = [slash] ∨ NoLongerFront (queryCut target) := by
  obtain ⟨hopen, hview⟩ := openName_eq h0 hok
  have hroot' := (isRooted_queryCut hok).trans hroot
  rw [hview, hopen, ← urlName_normalForm hroot', ← residue_eq_normalForm_iff hroot']
  generalize queryCut target = p at hroot'
  by_cases h1 : p.getLast? = some slash ∧ (normalForm slash dot p).length ≠ 1
  · simp [urlName, h1]
  by_cases h2 : normalForm slash dot p = [slash]
  · simp [urlName, h2]
  have hlast : p.getLast? ≠ some slash :=
    fun h => h1 ⟨h, (length_normalForm_rooted hroot').mpr h2⟩
  have hname : ∀ body, urlName p body = dot :: body := by
    intro body
    rw [urlName, if_neg h1, if_neg h2]
  rw [hname, hname, List.cons.injEq, List.cons.injEq]
  simp only [hlast, h2, false_or, true_and]
  exact ⟨And.left, fun h => ⟨h, h.symm⟩⟩

theorem open_eq_expected_sub :
    (openName (ascii "/sub/./") = expectedName (queryCut (ascii "/sub/./")) ∧
        pathView (ascii "/sub/./") = openName (ascii "/sub/./")) ↔
      (queryCut (ascii "/sub/./")).getLast? = some slash ∨
        normalForm slash dot (queryCut (ascii "/sub/./")) = [slash] ∨
        NoLongerFront (queryCut (ascii "/sub/./")) :=
  open_eq_expected_iff (by decide) (by decide) (by decide)

/-- `/ab/cd/..` names `./ab`, and `./ab/cd` is opened. -/
theorem open_ne_expected :
    ¬ ∀ target, isRooted slash target → 0 ∉ target → lengthOk (queryCut target) →
      openName target = expectedName (queryCut target) ∧ pathView target = openName target := by
  intro h
  obtain ⟨hopen, -⟩ := h (ascii "/ab/cd/..") (by decide) (by decide) (by decide)
  have hname : openName (ascii "/ab/cd/..") = ascii "./ab/cd" := by decide
  have hexp : expectedName (queryCut (ascii "/ab/cd/..")) = ascii "./ab" := by decide
  rw [hname, hexp] at hopen
  exact absurd hopen (by decide)

/-! ## Targets that are not rooted -/

abbrev up : List UInt8 := [dot, dot]

/-- `s` continues the component in front of it. -/
def Continues (s : List UInt8) : Prop := ∃ c ∈ s.head?, c ≠ slash

theorem continues_iff {s f : List UInt8} {t : List (List UInt8)} (h : s.splitOn slash = f :: t) :
    Continues s ↔ f ≠ [] := by
  cases s with
  | nil =>
    simp only [List.splitOn_nil, List.cons.injEq] at h
    simp [Continues, ← h.1]
  | cons c s =>
    rw [List.splitOn_cons_eq_if_modifyHead] at h
    obtain ⟨f', t', hs⟩ := exists_splitOn_eq_cons slash s
    by_cases hc : c = slash
    · simp only [hc, beq_self_eq_true, if_true, List.cons.injEq] at h
      simp [Continues, hc, ← h.1]
    · simp only [beq_iff_eq, hc, if_false, hs, List.modifyHead_cons, List.cons.injEq] at h
      simp [Continues, hc, ← h.1]

/-- `.` glued to a component other than the empty one and `.` is a name. -/
theorem walk_dot_cons {c : List UInt8} (h0 : c ≠ []) (h1 : c ≠ [dot]) (cs : List (List UInt8)) :
    walk dot 0 ((dot :: c) :: cs) = walk dot 1 cs :=
  walk_down (by simp) (by simpa using h0) (by simpa using h1) 0 cs

/-- A component that begins with `..` goes up once at most. -/
theorem isSome_walk_up_append {t : List (List UInt8)} (ht : up ∉ t) (f : List UInt8) (d : ℕ) :
    (walk dot d ((dot :: dot :: f) :: t)).isSome ↔ d ≠ 0 ∨ f ≠ [] := by
  by_cases hf : f = []
  · subst hf
    cases d with
    | zero => simp [walk_up_zero]
    | succ d => simp [walk_up_succ, isSome_walk ht]
  · rw [walk_down (by simp) (by simp) (by simpa using hf)]
    simp [isSome_walk ht, hf]

/-- The name for a path whose components are `names` behind `k` leading `..`, with
the last component continued by `f`, and `t` behind it: the first component
takes the `.` that `parse_url` puts in front, and becomes a step down. -/
theorem isSome_walk_ups {names : List (List UInt8)} (hn : ∀ n ∈ names, IsName slash dot n)
    {t : List (List UInt8)} (ht : up ∉ t) (f : List UInt8) (k : ℕ)
    (hne : List.replicate k up ++ names ≠ []) :
    (walk dot 0 ((glue (List.replicate k up ++ names) f t).modifyHead (dot :: ·))).isSome ↔
      k < 3 ∨ k = 3 ∧ names = [] ∧ f ≠ [] := by
  have hglue : names ≠ [] → ∀ d, (walk dot d (glue names f t)).isSome :=
    fun h => isSome_walk (up_notMem_glue hn h f ht)
  have hfirst : ∀ cs, walk dot 0 ((dot :: up) :: cs) = walk dot 1 cs :=
    walk_dot_cons (by simp) (by simp)
  match k, names with
  | 0, [] => exact absurd rfl hne
  | 0, [n] =>
    have hname := hn n (by simp)
    have h1 : n ++ f ≠ [dot] := by
      intro h
      rcases List.append_eq_singleton_iff.mp h with ⟨h, -⟩ | ⟨h, -⟩
      · exact hname.ne_nil h
      · exact hname.ne_dot h
    simp [glue, walk_dot_cons (by simp [hname.ne_nil]) h1, isSome_walk ht]
  | 0, n :: m :: names =>
    have hname := hn n (by simp)
    have hnames : ∀ k ∈ m :: names, IsName slash dot k := fun k hk => hn k (by simp [hk])
    have hrest := isSome_walk (up_notMem_glue hnames (by simp) f ht)
    simp [glue, walk_dot_cons hname.ne_nil hname.ne_dot, hrest]
  | 1, [] =>
    have := walk_dot_cons (c := dot :: dot :: f) (by simp) (by simp) t
    simp [glue, this, isSome_walk ht]
  | 1, n :: names =>
    simp [glue, hfirst, hglue]
  | 2, [] =>
    have := isSome_walk_up_append ht f 1
    simp [List.replicate_succ, glue, hfirst, this]
  | 2, n :: names =>
    simp [List.replicate_succ, glue, hfirst, walk_up_succ, hglue]
  | 3, [] =>
    have := isSome_walk_up_append ht f 0
    simp [List.replicate_succ, glue, hfirst, walk_up_succ, this]
  | 3, n :: names =>
    simp [List.replicate_succ, glue, hfirst, walk_up_succ, walk_up_zero]
  | k + 4, names =>
    cases names with
    | nil => cases k <;> simp [List.replicate_succ, glue, hfirst, walk_up_succ, walk_up_zero]
    | cons n names =>
      cases k <;> simp [List.replicate_succ, glue, hfirst, walk_up_succ, walk_up_zero]

/-- Names do not begin with `..`. -/
theorem eq_of_ups_eq {names cs : List (List UInt8)} (hn : ∀ n ∈ names, IsName slash dot n) {k : ℕ}
    (j : ℕ) (h : List.replicate k up ++ names = List.replicate j up ++ cs) :
    j ≤ k ∧ cs = List.replicate (k - j) up ++ names := by
  induction j generalizing k with
  | zero => exact ⟨Nat.zero_le k, by simpa using h.symm⟩
  | succ j ih =>
    cases k with
    | zero =>
      have hmem : up ∈ names := by
        rw [List.replicate_zero, List.nil_append] at h
        rw [h, List.replicate_succ]
        simp
      exact absurd rfl (hn up hmem).ne_up
    | succ k =>
      simp only [List.replicate_succ, List.cons_append, List.cons.injEq, true_and] at h
      obtain ⟨hle, hcs⟩ := ih h
      exact ⟨by omega, by rw [hcs, Nat.add_sub_add_right]⟩

theorem intercalate_ups (c : List UInt8) (cs : List (List UInt8)) :
    [slash].intercalate (List.replicate 3 up ++ c :: cs) =
      ascii "../../../" ++ [slash].intercalate (c :: cs) := by
  simp [List.replicate_succ, List.intercalate_cons_cons, ascii]

/-- Three steps up, with something behind them. -/
theorem threeUps_prefix_iff {names : List (List UInt8)} (hn : ∀ n ∈ names, IsName slash dot n)
    {k : ℕ} {nf : List UInt8} (hsplit : nf.splitOn slash = List.replicate k up ++ names) :
    ascii "../../../" <+: nf ↔ 3 < k ∨ k = 3 ∧ names ≠ [] := by
  constructor
  · rintro ⟨r, rfl⟩
    obtain ⟨f, t, hr⟩ := exists_splitOn_eq_cons slash r
    have hups : (ascii "../../../" ++ r).splitOn slash = List.replicate 3 up ++ f :: t := by
      have heq : ascii "../../../" = up ++ slash :: (up ++ slash :: (up ++ [slash])) := by decide
      rw [heq]
      simp [List.splitOn_cons_eq_if_modifyHead, hr, show dot ≠ slash by decide,
        List.replicate_succ]
    obtain ⟨hle, hcs⟩ := eq_of_ups_eq hn 3 (hsplit.symm.trans hups)
    rcases Nat.eq_or_lt_of_le hle with rfl | hlt
    · refine Or.inr ⟨rfl, ?_⟩
      rintro rfl
      simp at hcs
    · exact Or.inl hlt
  · intro h
    have hcons : ∃ c cs, List.replicate k up ++ names = List.replicate 3 up ++ c :: cs := by
      rcases h with h | ⟨rfl, h⟩
      · obtain ⟨j, rfl⟩ := Nat.exists_eq_add_of_lt h
        refine ⟨up, List.replicate j up ++ names, ?_⟩
        rw [Nat.add_assoc, List.replicate_add, List.append_assoc]
        rfl
      · obtain ⟨c, cs, rfl⟩ := List.exists_cons_of_ne_nil h
        exact ⟨c, cs, rfl⟩
    obtain ⟨c, cs, hcs⟩ := hcons
    have hjoin : [slash].intercalate (nf.splitOn slash) = nf := List.intercalate_splitOn slash
    rw [← hjoin, hsplit, hcs, intercalate_ups]
    exact List.prefix_append _ _

theorem eq_threeUps_iff {names : List (List UInt8)} (hn : ∀ n ∈ names, IsName slash dot n)
    {k : ℕ} {nf : List UInt8} (hsplit : nf.splitOn slash = List.replicate k up ++ names) :
    nf = ascii "../../.." ↔ k = 3 ∧ names = [] := by
  constructor
  · rintro rfl
    have hups : (ascii "../../..").splitOn slash = List.replicate 3 up ++ [] := by decide
    obtain ⟨hle, hcs⟩ := eq_of_ups_eq hn 3 (hsplit.symm.trans hups)
    rw [eq_comm, List.append_eq_nil_iff, List.replicate_eq_nil_iff] at hcs
    exact ⟨by omega, hcs.2⟩
  · rintro ⟨rfl, rfl⟩
    have hjoin : [slash].intercalate (nf.splitOn slash) = nf := List.intercalate_splitOn slash
    rw [← hjoin, hsplit]
    decide

/-- The components of the normal form of a path that is not rooted. -/
theorem exists_splitOn_normalForm {p : List UInt8} (h : isRooted slash p = false)
    (hstack : stackOf p ≠ []) :
    ∃ k names, (normalForm slash dot p).splitOn slash = List.replicate k up ++ names ∧
      (∀ n ∈ names, IsName slash dot n) ∧ List.replicate k up ++ names ≠ [] := by
  obtain ⟨names, k, hnames, hname, -⟩ := isStack_stackOf p
  have hrev : (stackOf p).reverse = List.replicate k up ++ names.reverse := by
    have := congrArg List.reverse hnames
    rwa [List.reverse_append, List.reverse_replicate] at this
  refine ⟨k, names.reverse, ?_, by simpa using hname, ?_⟩
  · rw [normalForm_relative h, if_neg hstack,
      splitOn_render hstack ((isStack_stackOf p).sep_notMem (by decide)), hrev]
    rfl
  · rw [← hrev]
    simpa using hstack

theorem normalForm_relative_ne_slash {p : List UInt8} (h : isRooted slash p = false) :
    normalForm slash dot p ≠ [slash] := by
  intro hnf
  by_cases hstack : stackOf p = []
  · rw [normalForm_relative h, if_pos hstack] at hnf
    exact absurd hnf (by decide)
  · obtain ⟨k, names, hsplit, hname, -⟩ := exists_splitOn_normalForm h hstack
    have hnil : ([slash] : List UInt8).splitOn slash = [[], []] := by decide
    rw [hnf, hnil] at hsplit
    cases k with
    | zero => exact (hname [] (by simp at hsplit; simp [← hsplit])).ne_nil rfl
    | succ k => simp [List.replicate_succ] at hsplit

/-- When a name made of a normal form stays inside. -/
theorem staysInside_name_iff {p s : List UInt8} (h : isRooted slash p = false)
    (htf : TailFree slash dot s) :
    staysInside slash dot (dot :: (normalForm slash dot p ++ s)) ↔
      (normalForm slash dot p = [dot] ∨ normalForm slash dot p = ascii "../../.." →
        Continues s) ∧ ¬ ascii "../../../" <+: normalForm slash dot p := by
  obtain ⟨f, t, hs⟩ := exists_splitOn_eq_cons slash s
  have ht : up ∉ t := fun hmem => htf _ (by rw [hs]; exact hmem) rfl
  have hdot : ∀ x, (dot :: x).splitOn slash = (x.splitOn slash).modifyHead (dot :: ·) := by
    intro x
    simp [List.splitOn_cons_eq_if_modifyHead, show dot ≠ slash by decide]
  rw [continues_iff hs, staysInside, hdot]
  by_cases hstack : stackOf p = []
  · have hnf : normalForm slash dot p = [dot] := by rw [normalForm_relative h, if_pos hstack]
    rw [hnf, List.singleton_append, hdot, hs, List.modifyHead_cons, List.modifyHead_cons,
      isSome_walk_up_append ht]
    simp [ascii]
  · obtain ⟨k, names, hsplit, hname, hne⟩ := exists_splitOn_normalForm h hstack
    have hnf : normalForm slash dot p ≠ [dot] := by
      intro hdot'
      rw [hdot', List.splitOn_eq_singleton (by decide)] at hsplit
      cases k with
      | zero => exact (hname [dot] (by simp at hsplit; simp [← hsplit])).ne_dot rfl
      | succ k => simp [List.replicate_succ] at hsplit
    rw [splitOn_append_glue hs, hsplit, isSome_walk_ups hname ht f k hne,
      threeUps_prefix_iff hname hsplit, eq_threeUps_iff hname hsplit]
    simp only [hnf, false_or]
    by_cases hnames : names = []
    · simp only [hnames, true_and, ne_eq, not_true_eq_false, and_false, or_false, and_true]
      constructor
      · rintro (hk | ⟨rfl, hf⟩)
        · exact ⟨fun h => by omega, by omega⟩
        · exact ⟨fun _ => hf, by omega⟩
      · rintro ⟨h1, h2⟩
        rcases Nat.lt_or_ge k 3 with hk | hk
        · exact Or.inl hk
        · exact Or.inr ⟨by omega, h1 (by omega)⟩
    · simp only [hnames, false_and, and_false, or_false, ne_eq, not_false_eq_true, and_true,
        IsEmpty.forall_iff, true_and]
      omega

/-- The name of a target that is not rooted stays inside: the conditions on the
normal form of its path, and on what is left behind the two normal forms that
need it. -/
structure Contained (path : List UInt8) : Prop where
  not_three_ups : ¬ ascii "../../../" <+: normalForm slash dot path
  dot_continued : normalForm slash dot path = [dot] →
    ∃ c ∈ lastAt slash dot false (path.splitOn slash) 1, c ≠ slash
  ups_continued : normalForm slash dot path = ascii "../../.." → path.getLast? ≠ some slash ∧
    ∃ c ∈ lastAt slash dot false (path.splitOn slash) 8, c ≠ slash

/-- What follows the normal form in the residue. -/
theorem getElem?_residue {p : List UInt8} (h : isRooted slash p = false) {i : ℕ} (hi : 0 < i) :
    (residue slash dot p)[i]? = lastAt slash dot false (p.splitOn slash) i := by
  rw [← trail_getElem? (fun c hc => sep_notMem_of_mem_splitOn hc), residue, h]
  split_ifs
  · rw [getElem?_overlay_right hi]
  · rfl

theorem continues_iff_getElem? {n s : List UInt8} :
    Continues s ↔ ∃ c ∈ (n ++ s)[n.length]?, c ≠ slash := by
  rw [Continues, List.getElem?_append_right le_rfl, Nat.sub_self, List.head?_eq_getElem?]

/-- **Traversal for targets that are not rooted.** The name passed to `open`, read
from the left, stays in the working directory exactly when the target's path is
`Contained`. -/
theorem open_relative_inside_iff {target : List UInt8} (hroot : isRooted slash target = false)
    (h0 : 0 ∉ target) (hok : lengthOk (queryCut target)) :
    staysInside slash dot (openName target) ↔ Contained (queryCut target) := by
  have hroot' := (isRooted_queryCut hok).trans hroot
  rw [(openName_eq h0 hok).1]
  generalize queryCut target = p at hroot'
  obtain ⟨s, hs, htf⟩ := residue_eq p
  have hslash := normalForm_relative_ne_slash hroot'
  by_cases h1 : p.getLast? = some slash ∧ (normalForm slash dot p).length ≠ 1
  · have hname : urlName p (residue slash dot p) =
        dot :: (normalForm slash dot p ++ slash :: ascii "index.html") := by
      rw [urlName, if_pos h1, List.cons_append]
    have hcont : ¬ Continues (slash :: ascii "index.html") := by simp [Continues]
    rw [hname, staysInside_name_iff hroot' (by unfold TailFree; decide)]
    simp only [hcont, imp_false, not_or]
    constructor
    · rintro ⟨⟨h2, h3⟩, h4⟩
      exact ⟨h4, fun h => absurd h h2, fun h => absurd h h3⟩
    · rintro ⟨h2, h3, h4⟩
      exact ⟨⟨fun h => h1.2 (by rw [h]; rfl), fun h => (h4 h).1 h1.1⟩, h2⟩
  · have hname : urlName p (residue slash dot p) = dot :: (normalForm slash dot p ++ s) := by
      rw [urlName, if_neg h1, if_neg hslash, hs]
    rw [hname, staysInside_name_iff hroot' htf,
      continues_iff_getElem? (n := normalForm slash dot p), ← hs]
    constructor
    · rintro ⟨h2, h3⟩
      refine ⟨h3, fun h => ?_, fun h => ⟨fun hl => h1 ⟨hl, by rw [h]; decide⟩, ?_⟩⟩
      · rw [← getElem?_residue hroot' (by omega)]
        simpa [h] using h2 (Or.inl h)
      · rw [← getElem?_residue hroot' (by omega)]
        simpa [h, ascii] using h2 (Or.inr h)
    · rintro ⟨h2, h3, h4⟩
      refine ⟨?_, h2⟩
      rintro (h | h)
      · rw [h, getElem?_residue hroot' (by simp)]
        exact h3 h
      · rw [h, getElem?_residue hroot' (by decide)]
        exact (h4 h).2

theorem open_relative_inside_dir :
    staysInside slash dot (openName (ascii "dir/x")) ↔ Contained (queryCut (ascii "dir/x")) :=
  open_relative_inside_iff (by decide) (by decide) (by decide)

/-- `a/b/../..` opens `../b`. -/
theorem open_relative_outside :
    ¬ ∀ target, isRooted slash target = false → 0 ∉ target → lengthOk (queryCut target) →
      staysInside slash dot (openName target) := by
  intro h
  have hin := h (ascii "a/b/../..") (by decide) (by decide) (by decide)
  have hname : openName (ascii "a/b/../..") = ascii "../b" := by decide
  rw [hname] at hin
  exact absurd hin (by decide)

end Yotta.Server
