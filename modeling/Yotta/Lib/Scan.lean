import Mathlib.Tactic

/-!
# Incremental scanners

A scanner reads the front of its input and returns a value with the rest of the
input, fails, or reaches the end of the input before it can decide. `Extends f`
says that more input does not change a decision `f` has made; it is closed
under `map` and `bind`, and it turns a run on a whole input into a statement
about every front of that input (`Extends.eof_of_append`). `Exact f` says that
`f` reads a text that decides by itself, and `Peeks f` that it looks at one more
element at most: a text that has been read completely is read in the same way
with other input behind it. `Reads P f` says that what `f` reads satisfies `P`, and
`Stalls P f` that the inputs on which `f` cannot decide satisfy `P`; `Viable Q f` says
that each of these inputs is the front of one that `f` reads. `span` is the loop that
most scanners are.
-/

namespace Yotta

/-- The outcome of a scanner over the alphabet `τ`. -/
inductive Scan (τ α : Type*) where
  /-- `a` was read, `rest` follows it. -/
  | done (a : α) (rest : List τ)
  /-- The input ended too early. -/
  | eof
  /-- No extension of the input is accepted. -/
  | bad
deriving DecidableEq

namespace Scan

variable {τ α β : Type*}

def map (f : α → β) : Scan τ α → Scan τ β
  | done a rest => done (f a) rest
  | eof => eof
  | bad => bad

def bind (x : Scan τ α) (f : α → List τ → Scan τ β) : Scan τ β :=
  match x with
  | done a rest => f a rest
  | eof => eof
  | bad => bad

/-- The outcome with more input behind the rest. -/
def append : Scan τ α → List τ → Scan τ α
  | done a rest, t => done a (rest ++ t)
  | eof, _ => eof
  | bad, _ => bad

@[simp] theorem map_done (f : α → β) (a : α) (rest : List τ) :
    (done a rest).map f = done (f a) rest := rfl
@[simp] theorem map_eof (f : α → β) : (eof : Scan τ α).map f = eof := rfl
@[simp] theorem map_bad (f : α → β) : (bad : Scan τ α).map f = bad := rfl

@[simp] theorem bind_done (f : α → List τ → Scan τ β) (a : α) (rest : List τ) :
    (done a rest).bind f = f a rest := rfl
@[simp] theorem bind_eof (f : α → List τ → Scan τ β) : (eof : Scan τ α).bind f = eof := rfl
@[simp] theorem bind_bad (f : α → List τ → Scan τ β) : (bad : Scan τ α).bind f = bad := rfl

@[simp] theorem append_done (a : α) (rest t : List τ) :
    (done a rest).append t = done a (rest ++ t) := rfl
@[simp] theorem append_bad (t : List τ) : (bad : Scan τ α).append t = bad := rfl

theorem append_map (f : α → β) (x : Scan τ α) (t : List τ) :
    (x.map f).append t = (x.append t).map f := by
  cases x <;> rfl

theorem map_eq_done {f : α → β} {x : Scan τ α} {b : β} {rest : List τ} :
    x.map f = done b rest ↔ ∃ a, x = done a rest ∧ f a = b := by
  cases x <;> simp [and_comm]

theorem map_eq_eof {f : α → β} {x : Scan τ α} : x.map f = eof ↔ x = eof := by
  cases x <;> simp

theorem bind_eq_done {x : Scan τ α} {f : α → List τ → Scan τ β} {b : β} {rest : List τ} :
    x.bind f = done b rest ↔ ∃ a s, x = done a s ∧ f a s = done b rest := by
  cases x <;> simp

/-! ## More input -/

/-- A decision of `f` stands when more input arrives. -/
def Extends (f : List τ → Scan τ α) : Prop :=
  ∀ s t, f s ≠ eof → f (s ++ t) = (f s).append t

theorem Extends.more {f : List τ → Scan τ α} (h : Extends f) {s rest : List τ} {a : α}
    (hs : f s = done a rest) (t : List τ) : f (s ++ t) = done a (rest ++ t) := by
  rw [h s t (by rw [hs]; exact nofun), hs, append_done]

theorem Extends.map {f : List τ → Scan τ α} (h : Extends f) (g : α → β) :
    Extends fun s => (f s).map g := by
  intro s t hne
  rw [ne_eq, map_eq_eof] at hne
  simp only
  rw [h s t hne, append_map]

theorem Extends.bind {f : List τ → Scan τ α} {g : α → List τ → Scan τ β} (hf : Extends f)
    (hg : ∀ a, Extends (g a)) : Extends fun s => (f s).bind (g ·) := by
  intro s t hne
  simp only at hne ⊢
  cases hs : f s with
  | eof => simp [hs] at hne
  | bad => rw [hf s t (by simp [hs]), hs]; rfl
  | done a rest =>
    rw [hs, bind_done] at hne
    rw [hf s t (by simp [hs]), hs, append_done, bind_done, bind_done]
    exact hg a rest t hne

/-- On a proper front of an input that is read completely, a scanner reaches the
end of its input. -/
theorem Extends.eof_of_append {f : List τ → Scan τ α} (h : Extends f) {s t : List τ} {a : α}
    (ht : t ≠ []) (hdone : f (s ++ t) = done a []) : f s = eof := by
  by_contra hne
  have := h s t hne
  rw [hdone] at this
  cases hs : f s with
  | eof => exact hne hs
  | bad => simp [hs] at this
  | done b rest => simp [hs, ht] at this

/-- Where a whole input ends too early, every front of it does. -/
theorem Extends.eof_front {f : List τ → Scan τ α} (h : Extends f) {s t : List τ}
    (hst : f (s ++ t) = eof) : f s = eof := by
  by_contra hne
  have := h s t hne
  rw [hst] at this
  cases hs : f s with
  | eof => exact hne hs
  | bad => simp [hs] at this
  | done a rest => simp [hs] at this

/-- What is read from a whole input is read from a front on which the scanner
decides. -/
theorem Extends.of_done {f : List τ → Scan τ α} (h : Extends f) {s t rest : List τ} {a : α}
    (hne : f s ≠ eof) (hst : f (s ++ t) = done a rest) :
    ∃ rest', f s = done a rest' ∧ rest = rest' ++ t := by
  have := h s t hne
  rw [hst] at this
  cases hs : f s with
  | eof => exact absurd hs hne
  | bad => simp [hs] at this
  | done b rest' =>
    rw [hs, append_done] at this
    obtain ⟨rfl, rfl⟩ : a = b ∧ rest = rest' ++ t := by simpa using this
    exact ⟨rest', rfl, rfl⟩

/-! ## Other input -/

/-- What `f` reads decides together with the element behind it. -/
def Peeks (f : List τ → Scan τ α) : Prop :=
  ∀ s a rest, f s = done a rest →
    ∃ p, s = p ++ rest ∧ ∀ t, t.head? = rest.head? → f (p ++ t) = done a t

/-- What `f` reads decides, and is not empty. -/
def Exact (f : List τ → Scan τ α) : Prop :=
  ∀ s a rest, f s = done a rest → ∃ p, p ≠ [] ∧ s = p ++ rest ∧ ∀ t, f (p ++ t) = done a t

theorem Exact.peeks {f : List τ → Scan τ α} (h : Exact f) : Peeks f := by
  intro s a rest hs
  obtain ⟨p, -, hp, ht⟩ := h s a rest hs
  exact ⟨p, hp, fun t _ => ht t⟩

theorem Exact.map {f : List τ → Scan τ α} (h : Exact f) (g : α → β) :
    Exact fun s => (f s).map g := by
  intro s b rest hs
  obtain ⟨a, ha, rfl⟩ := map_eq_done.mp hs
  obtain ⟨p, hne, hp, ht⟩ := h s a rest ha
  exact ⟨p, hne, hp, fun t => by simp only [ht t, map_done]⟩

theorem Peeks.bind {f : List τ → Scan τ α} {g : α → List τ → Scan τ β} (hf : Peeks f)
    (hg : ∀ a, Peeks (g a)) : Peeks fun s => (f s).bind (g ·) := by
  intro s b rest hs
  obtain ⟨a, u, ha, hu⟩ := bind_eq_done.mp hs
  obtain ⟨p, rfl, ht⟩ := hf s a u ha
  obtain ⟨q, rfl, hq⟩ := hg a u b rest hu
  refine ⟨p ++ q, by rw [List.append_assoc], fun t hhead => ?_⟩
  have hhead' : (q ++ t).head? = (q ++ rest).head? := by
    cases q with
    | nil => exact hhead
    | cons c q => rfl
  simp only [List.append_assoc, ht _ hhead', bind_done, hq t hhead]

theorem Peeks.bind_exact {f : List τ → Scan τ α} {g : α → List τ → Scan τ β} (hf : Peeks f)
    (hg : ∀ a, Exact (g a)) : Exact fun s => (f s).bind (g ·) := by
  intro s b rest hs
  obtain ⟨a, u, ha, hu⟩ := bind_eq_done.mp hs
  obtain ⟨p, rfl, ht⟩ := hf s a u ha
  obtain ⟨q, hne, rfl, hq⟩ := hg a u b rest hu
  refine ⟨p ++ q, by simp [hne], by rw [List.append_assoc], fun t => ?_⟩
  have hhead : (q ++ t).head? = (q ++ rest).head? := by
    cases q with
    | nil => exact absurd rfl hne
    | cons c q => rfl
  simp only [List.append_assoc, ht _ hhead, bind_done, hq t]

/-- Where the front of an input ends too early, what is read ends behind it. -/
theorem Exact.length_lt_of_eof {f : List τ → Scan τ α} (h : Exact f) {s t rest : List τ} {a : α}
    (hs : f s = eof) (hst : f (s ++ t) = done a rest) : rest.length < t.length := by
  obtain ⟨p, -, hp, hread⟩ := h _ a rest hst
  by_contra hle
  rw [not_lt] at hle
  have hlen := congrArg List.length hp
  rw [List.length_append, List.length_append] at hlen
  obtain ⟨r, hr⟩ : p <+: s := List.prefix_of_prefix_length_le
    (by rw [hp]; exact List.prefix_append p rest) (List.prefix_append s t) (by omega)
  rw [← hr, hread] at hs
  cases hs

/-! ## What is read -/

/-- The text that `f` reads satisfies `P`. -/
def Reads (P : List τ → Prop) (f : List τ → Scan τ α) : Prop :=
  ∀ s a rest, f s = done a rest → ∃ p, s = p ++ rest ∧ P p

theorem Reads.map {P : List τ → Prop} {f : List τ → Scan τ α} (h : Reads P f) (g : α → β) :
    Reads P fun s => (f s).map g := by
  intro s b rest hs
  obtain ⟨a, ha, -⟩ := map_eq_done.mp hs
  exact h s a rest ha

theorem Reads.bind {P Q R : List τ → Prop} {f : List τ → Scan τ α} {g : α → List τ → Scan τ β}
    (hf : Reads P f) (hg : ∀ a, Reads Q (g a)) (happ : ∀ p q, P p → Q q → R (p ++ q)) :
    Reads R fun s => (f s).bind (g ·) := by
  intro s b rest hs
  obtain ⟨a, u, ha, hu⟩ := bind_eq_done.mp hs
  obtain ⟨p, rfl, hp⟩ := hf s a u ha
  obtain ⟨q, rfl, hq⟩ := hg a u b rest hu
  exact ⟨p ++ q, by rw [List.append_assoc], happ p q hp hq⟩

/-- An input that ends too early for `f` satisfies `P`. -/
def Stalls (P : List τ → Prop) (f : List τ → Scan τ α) : Prop := ∀ s, f s = eof → P s

theorem Stalls.map {P : List τ → Prop} {f : List τ → Scan τ α} (h : Stalls P f) (g : α → β) :
    Stalls P fun s => (f s).map g :=
  fun s hs => h s (map_eq_eof.mp hs)

theorem Stalls.bind {P Q : List τ → Prop} {f : List τ → Scan τ α} {g : α → List τ → Scan τ β}
    (hf : Stalls P f) (hread : Reads Q f) (hg : ∀ a, Stalls P (g a))
    (happ : ∀ p q, Q p → P q → P (p ++ q)) : Stalls P fun s => (f s).bind (g ·) := by
  intro s hs
  dsimp only at hs
  cases ha : f s with
  | eof => exact hf s ha
  | bad => simp [ha] at hs
  | done a rest =>
    rw [ha, bind_done] at hs
    obtain ⟨p, rfl, hp⟩ := hread s a rest ha
    exact happ p rest hp (hg a rest hs)

/-! ## Input that can be completed -/

/-- An input that ends too early for `f` can be completed: behind it `f` reads, and `Q` holds of
what is left. -/
def Viable (Q : List τ → Prop) (f : List τ → Scan τ α) : Prop :=
  ∀ s, f s = eof → ∃ t a rest, f (s ++ t) = done a rest ∧ Q rest

theorem Viable.map {Q : List τ → Prop} {f : List τ → Scan τ α} (h : Viable Q f) (g : α → β) :
    Viable Q fun s => (f s).map g := by
  intro s hs
  obtain ⟨t, a, rest, ht, hQ⟩ := h s (map_eq_eof.mp hs)
  exact ⟨t, g a, rest, by simp only [ht, map_done], hQ⟩

/-- The first part is completed, then the second one, for which what is left is no end. -/
theorem Viable.bind {Q R : List τ → Prop} {f : List τ → Scan τ α} {g : α → List τ → Scan τ β}
    (hf : Viable Q f) (hext : Extends f) (hg : ∀ a, Viable R (g a))
    (hstop : ∀ a rest, Q rest → g a rest = eof) : Viable R fun s => (f s).bind (g ·) := by
  have hmore : ∀ s a u, f s = done a u → g a u = eof →
      ∃ t b rest, (f (s ++ t)).bind (g ·) = done b rest ∧ R rest := by
    intro s a u hs hu
    obtain ⟨t, b, rest, ht, hR⟩ := hg a u hu
    exact ⟨t, b, rest, by rw [hext.more hs, bind_done, ht], hR⟩
  intro s hs
  dsimp only at hs
  cases ha : f s with
  | eof =>
    obtain ⟨t, a, u, ht, hQ⟩ := hf s ha
    obtain ⟨t', b, rest, hb, hR⟩ := hmore (s ++ t) a u ht (hstop a u hQ)
    rw [List.append_assoc] at hb
    exact ⟨t ++ t', b, rest, hb, hR⟩
  | bad => simp [ha] at hs
  | done a u =>
    rw [ha, bind_done] at hs
    exact hmore s a u ha hs

/-! ## Loops -/

/-- Steps over the elements that satisfy `p`; `stop` decides at the first other one. -/
def span (p : τ → Bool) (stop : τ → List τ → Scan τ Unit) : List τ → Scan τ (List τ)
  | [] => eof
  | c :: s => if p c then (span p stop s).map (c :: ·) else (stop c s).map fun _ => []

variable {p : τ → Bool} {stop : τ → List τ → Scan τ Unit}

/-- A loop goes on behind elements that it steps over. -/
theorem span_append {a : List τ} (ha : ∀ c ∈ a, p c) (s : List τ) :
    span p stop (a ++ s) = (span p stop s).map (a ++ ·) := by
  induction a with
  | nil => cases h : span p stop s <;> simp [h]
  | cons c a ih =>
    rw [List.cons_append, span, if_pos (ha c List.mem_cons_self),
      ih fun d hd => ha d (List.mem_cons_of_mem _ hd)]
    cases span p stop s <;> rfl

theorem span_eq_done {s a rest : List τ} : span p stop s = done a rest ↔
    ∃ c t, s = a ++ c :: t ∧ (∀ d ∈ a, p d) ∧ p c = false ∧ stop c t = done () rest := by
  constructor
  · intro h
    induction s generalizing a with
    | nil => cases h
    | cons c s ih =>
      rw [span] at h
      split_ifs at h with hc
      · obtain ⟨b, hb, rfl⟩ := map_eq_done.mp h
        obtain ⟨d, t, rfl, hall, hd, hstop⟩ := ih hb
        exact ⟨d, t, rfl, List.forall_mem_cons.mpr ⟨hc, hall⟩, hd, hstop⟩
      · obtain ⟨_, hstop, rfl⟩ := map_eq_done.mp h
        exact ⟨c, s, rfl, List.forall_mem_nil _, by simpa using hc, hstop⟩
  · rintro ⟨c, t, rfl, hall, hc, hstop⟩
    rw [span_append hall, span, if_neg (by simp [hc]), hstop, map_done, map_done, List.append_nil]

/-- A loop does not get over an element at which it is refused. -/
theorem span_eq_bad {a : List τ} (ha : ∃ c ∈ a, p c = false)
    (hstop : ∀ c ∈ a, p c = false → ∀ t, stop c t = bad) (s : List τ) :
    span p stop (a ++ s) = bad := by
  induction a with
  | nil => obtain ⟨c, hc, -⟩ := ha; cases hc
  | cons c a ih =>
    rw [List.cons_append, span]
    split_ifs with hc
    · obtain ⟨d, hd, hpd⟩ := ha
      have hmem : d ∈ a := by
        rcases List.mem_cons.mp hd with rfl | hd
        · rw [hc] at hpd
          cases hpd
        · exact hd
      rw [ih ⟨d, hmem, hpd⟩ fun e he => hstop e (List.mem_cons_of_mem _ he), map_bad]
    · rw [hstop c List.mem_cons_self (by simpa using hc), map_bad]

theorem span_viable {Q : List τ → Prop}
    (hend : ∃ c t rest, p c = false ∧ stop c t = done () rest ∧ Q rest)
    (hstop : ∀ c, p c = false → Viable Q (stop c)) : Viable Q (span p stop) := by
  intro s
  induction s with
  | nil =>
    intro _
    obtain ⟨c, t, rest, hc, hrest, hQ⟩ := hend
    exact ⟨c :: t, [], rest, span_eq_done.mpr ⟨c, t, rfl, List.forall_mem_nil _, hc, hrest⟩, hQ⟩
  | cons c s ih =>
    intro h
    rw [span] at h
    split_ifs at h with hc
    · obtain ⟨t, a, rest, ht, hQ⟩ := ih (map_eq_eof.mp h)
      exact ⟨t, c :: a, rest, by rw [List.cons_append, span, if_pos hc, ht, map_done], hQ⟩
    · obtain ⟨t, _, rest, ht, hQ⟩ := hstop c (by simpa using hc) s (map_eq_eof.mp h)
      exact ⟨t, [], rest, by rw [List.cons_append, span, if_neg hc, ht, map_done], hQ⟩

end Scan

end Yotta
