/-
How many pages the walks of the boot code take.

A walk to a position takes a page for each table that is missing on the way (`missing`).  After it
the tables are there, so the walk to the next position takes one only where a table ends.

* **`vmMmap_room`** — with as many free pages as tables begin in the range, no page is refused, and
  no more pages than that are taken.
* **`loop_wraps`** — a range that does not end with the table goes on at its first position.
-/
import AcoOs.EarlyWalk

namespace AcoOs

open Radix

namespace EarlyMemory

variable {x y z : EarlyMemory} {d t k p v w n flags va pa b : ℕ}

/-- The number of tables that begin in the `n` positions behind `v`, on both levels. -/
def tablesBehind (v n : ℕ) : ℕ := (v + n) / 512 - v / 512 + ((v + n) / 512 ^ 2 - v / 512 ^ 2)

theorem tablesBehind_add (v m n : ℕ) :
    tablesBehind v (m + n) = tablesBehind v m + tablesBehind (v + m) n := by
  unfold tablesBehind
  rw [Nat.add_assoc]
  omega

theorem meet_two (v w : ℕ) : meet 2 v w =
    if v / 512 ^ 2 = w / 512 ^ 2 then if v / 512 = w / 512 then 0 else 1 else 2 := by
  have hmod : ∀ u : ℕ, u % 512 ^ (1 + 1) / 512 ^ (0 + 1) = u / 512 % 512 := by
    intro u
    rw [pow_succ' 512 1, Nat.zero_add, pow_one, Nat.mod_mul_right_div_self]
  rw [meet, meet, hmod, hmod, meet]
  norm_num only
  by_cases h : v / 262144 = w / 262144
  · rw [if_pos h, if_pos h]
    exact if_congr (by omega) rfl rfl
  · rw [if_neg h, if_neg h]

theorem meet_succ (v : ℕ) : meet 2 v (v + 1) = tablesBehind v 1 := by
  rw [meet_two, tablesBehind]
  split_ifs <;> omega

/-- Behind a position with an entry only the tables that begin there are missing. -/
theorem missing_next (h : x.leaf 2 t v ≠ none) : x.missing 2 t (v + 1) ≤ tablesBehind v 1 := by
  have hle := missing_le_max x 2 t v (v + 1)
  rwa [missing_eq_zero_iff.2 h, Nat.max_zero, meet_succ] at hle

/-! ### The walks -/

/-- `b` pages were enough. -/
structure Room (x x' : EarlyMemory) (b : ℕ) : Prop where
  refused : x'.refused = x.refused
  sizeFree : x.sizeFree ≤ x'.sizeFree + b * pageSize

theorem Room.refl (x : EarlyMemory) (b : ℕ) : Room x x b :=
  ⟨rfl, Nat.le_add_right _ _⟩

theorem Room.trans {c : ℕ} (h : Room x y b) (h' : Room y z c) : Room x z (b + c) where
  refused := h'.refused.trans h.refused
  sizeFree := by
    have h1 := h.sizeFree
    have h2 := h'.sizeFree
    rw [Nat.add_mul]
    omega

/-- What is left for the rest of the work. -/
theorem Room.left {c : ℕ} (h : Room x y b) (hroom : (b + c) * pageSize ≤ x.sizeFree) :
    c * pageSize ≤ y.sizeFree := by
  have h1 := h.sizeFree
  rw [Nat.add_mul] at hroom
  omega

theorem Room.mono {c : ℕ} (h : Room x y b) (hle : b ≤ c) : Room x y c :=
  ⟨h.refused, h.sizeFree.trans (Nat.add_le_add_left (Nat.mul_le_mul_right _ hle) _)⟩

/-- A walk takes the pages that are missing on its way. -/
theorem walk_room (flags d : ℕ) (hd : d ≤ 2) (hx : x.Ok) (ht : x.IsTable d t)
    (hva : va % pageSize = 0) (hpa : pa % pageSize = 0)
    (hroom : x.missing d t (position d va) * pageSize ≤ x.sizeFree) :
    Room x (vmWalkthrough flags d x t va pa).2 (x.missing d t (position d va)) := by
  obtain ⟨ret, y, heq, -, -, hend⟩ := walk_end flags d hd hx ht hva hpa
  rw [heq]
  cases hend with
  | found _ hsize href => exact ⟨href, hsize ▸ Nat.le_add_right _ _⟩
  | refused hlt hm _ _ _ =>
    have hle := Nat.le_mul_of_pos_left pageSize hm
    omega
  | entered hsum _ href => exact ⟨href, hsum.ge⟩
  | unnoticed _ hm _ _ _ => exact absurd hroom (not_le.2 hm)

theorem loop_room (flags n : ℕ) (hx : x.Ok) (ht : x.IsTable 2 t) (href : x.refused = false)
    (hva : va % pageSize = 0) (hpa : pa % pageSize = 0) (hv : position 2 va = v)
    (hend : v + n < tableSpan) (hmissing : x.missing 2 t v ≤ b)
    (hroom : (b + tablesBehind v n) * pageSize ≤ x.sizeFree) :
    Room x (vmMmapLoop flags t (n + 1) x va pa).2 (b + tablesBehind v n) := by
  induction n generalizing x va pa v b with
  | zero =>
    have hwalk := walk_room flags 2 le_rfl hx ht hva hpa (by
      rw [hv]
      exact (Nat.mul_le_mul_right _ (hmissing.trans (Nat.le_add_right _ _))).trans hroom)
    rw [hv] at hwalk
    rw [vmMmapLoop]
    rcases hw : vmWalkthrough flags 2 x t va pa with ⟨ret, y⟩
    rw [hw] at hwalk
    have hy := hwalk.mono (hmissing.trans (Nat.le_add_right b (tablesBehind v 0)))
    dsimp only
    by_cases hret : ret = 0
    · rw [if_neg (not_not.2 hret)]
      exact hy
    · rw [if_pos hret]
      exact hy
  | succ n ih =>
    have hwalk := walk_room flags 2 le_rfl hx ht hva hpa (by
      rw [hv]
      exact (Nat.mul_le_mul_right _ (hmissing.trans (Nat.le_add_right _ _))).trans hroom)
    obtain ⟨ret, y, hw, hstep, hcase⟩ := walk_spec flags 2 le_rfl hx ht hva hpa
    rw [hv, hw] at hwalk
    rw [hv] at hcase
    rw [vmMmapLoop, hw]
    dsimp only
    by_cases hret : ret = 0
    swap
    · rw [if_pos hret]
      exact hwalk.mono (hmissing.trans (Nat.le_add_right _ _))
    rw [if_neg (not_not.2 hret)]
    have hy : y.refused = false := hwalk.refused.trans href
    obtain ⟨-, hent⟩ := (hcase hy).resolve_right fun hc => by
      rw [hret] at hc
      exact absurd hc.1 (by decide)
    have hleaf : y.leaf 2 t v ≠ none := by
      rw [hent.entry]
      exact Option.some_ne_none _
    have hb := hwalk.mono hmissing
    have hsplit : b + tablesBehind v (n + 1) =
        b + (tablesBehind v 1 + tablesBehind (v + 1) n) := by
      rw [← tablesBehind_add, Nat.add_comm 1 n]
    rw [hsplit] at hroom ⊢
    exact hb.trans (ih hstep.ok hstep.table hy (advance_aligned hva) (advance_aligned hpa)
      (position_next hv (by omega)) (by omega) (missing_next hleaf) (hb.left hroom))

/-- `b` pages for the first page of the range, and one for each table that begins behind it, are
enough. -/
theorem vmMmap_room (flags : ℕ) (hx : x.Ok) (ht : x.IsTable 2 t) (href : x.refused = false)
    (hva : va % pageSize = 0) (hpa : pa % pageSize = 0) {size : ℕ} (hsize : size % pageSize = 0)
    (hn : size / pageSize = n + 1) (hend : position 2 va + n < tableSpan)
    (hmissing : x.missing 2 t (position 2 va) ≤ b)
    (hroom : (b + tablesBehind (position 2 va) n) * pageSize ≤ x.sizeFree) :
    Room x (x.vmMmap t va pa size flags).2.2 (b + tablesBehind (position 2 va) n) := by
  rw [vmMmap_loop flags ht.ne_zero hva hpa hsize, hn]
  exact loop_room flags n hx ht href hva hpa rfl hend hmissing hroom

/-! ### Past the end of the table -/

theorem vmMmapLoop_succ (h : vmWalkthrough flags 2 x t va pa = (0, y)) :
    vmMmapLoop flags t (n + 1) x va pa =
      vmMmapLoop flags t n y (advance va 1) (advance pa 1) := by
  rw [vmMmapLoop, h]
  exact if_neg (not_not.2 rfl)

theorem walk_of_loop (h : vmMmapLoop flags t (n + 1) x va pa = (0, z)) :
    ∃ y, vmWalkthrough flags 2 x t va pa = (0, y) ∧
      vmMmapLoop flags t n y (advance va 1) (advance pa 1) = (0, z) := by
  rcases hw : vmWalkthrough flags 2 x t va pa with ⟨ret, y⟩
  rw [vmMmapLoop, hw] at h
  dsimp only at h
  by_cases hret : ret = 0
  · subst hret
    exact ⟨y, rfl, h⟩
  · rw [if_pos hret] at h
    exact absurd (congrArg Prod.fst h) hret

theorem vmMmapLoop_add {m : ℕ} (hva : va < 2 ^ 64) (hpa : pa < 2 ^ 64)
    (h : vmMmapLoop flags t m x va pa = (0, y)) :
    vmMmapLoop flags t (m + n) x va pa =
      vmMmapLoop flags t n y (advance va m) (advance pa m) := by
  induction m generalizing x va pa with
  | zero =>
    obtain rfl : x = y := congrArg Prod.snd h
    rw [Nat.zero_add, Nat.cast_zero, advance_zero hva, advance_zero hpa]
  | succ m ih =>
    obtain ⟨z, hwalk, hloop⟩ := walk_of_loop h
    have hone : ∀ u, advance (advance u 1) m = advance u (m + 1 : ℕ) := fun u => by
      rw [show (1 : ℤ) = (1 : ℕ) from rfl, advance_advance, Nat.add_comm]
    rw [Nat.succ_add, vmMmapLoop_succ hwalk, ih (advance_lt va 1) (advance_lt pa 1) hloop, hone,
      hone]

/-- A walk that returns 0 leaves the valid entries as they are.  With two free pages it enters its
position. -/
theorem walk_keeps (hx : x.Ok) (ht : x.IsTable 2 t) (hva : va % pageSize = 0)
    (hpa : pa % pageSize = 0) (h : vmWalkthrough flags 2 x t va pa = (0, y)) :
    Step x y 2 t ∧
      (∀ w < tableSpan, ∀ e, x.leaf 2 t w = some e → PteValid e → y.leaf 2 t w = some e) ∧
      (2 * pageSize ≤ x.sizeFree → y.leaf 2 t (position 2 va) = some (sv39Pa2PTE pa flags)) := by
  obtain ⟨ret, y', heq, hstep, hpath, hend⟩ := walk_end flags 2 le_rfl hx ht hva hpa
  rw [h] at heq
  obtain ⟨rfl, rfl⟩ := Prod.mk.inj heq
  have hmissing := missing_le x 2 t (position 2 va)
  have hother : ∀ w < tableSpan, w ≠ position 2 va → ∀ e, x.leaf 2 t w = some e →
      y.leaf 2 t w = some e := by
    intro w hw hne e he
    rcases hpath.rest w hw hne with hs | ⟨hs, -⟩
    · rw [hs, he]
    · rw [he] at hs
      cases hs
  refine ⟨hstep, fun w hw e he hval => ?_, fun hroom => ?_⟩
  · by_cases hw' : w = position 2 va
    · subst hw'
      cases hend with
      | entered _ hent _ => exact absurd ⟨e, he, hval⟩ hent.empty
      | unnoticed _ hm _ _ _ =>
        rw [missing_eq_zero_iff.2 (by rw [he]; exact Option.some_ne_none e), Nat.zero_mul] at hm
        exact absurd hm (Nat.not_lt_zero _)
    · exact hother w hw hw' e he
  · cases hend with
    | entered _ hent _ => exact hent.entry
    | unnoticed _ hm _ _ _ =>
      have := Nat.mul_le_mul_right pageSize hmissing
      omega

/-- So does a loop of walks. -/
theorem loop_keeps (hx : x.Ok) (ht : x.IsTable 2 t) (hva : va % pageSize = 0)
    (hpa : pa % pageSize = 0) (h : vmMmapLoop flags t n x va pa = (0, y)) :
    Step x y 2 t ∧
      ∀ w < tableSpan, ∀ e, x.leaf 2 t w = some e → PteValid e → y.leaf 2 t w = some e := by
  induction n generalizing x va pa with
  | zero =>
    obtain rfl : x = y := congrArg Prod.snd h
    exact ⟨.refl hx ht, fun _ _ _ he _ => he⟩
  | succ n ih =>
    obtain ⟨z, hwalk, hloop⟩ := walk_of_loop h
    obtain ⟨hstep, hkeep, -⟩ := walk_keeps hx ht hva hpa hwalk
    obtain ⟨hstep', hkeep'⟩ := ih hstep.ok hstep.table (advance_aligned hva) (advance_aligned hpa)
      hloop
    exact ⟨hstep.trans hstep', fun w hw e he hval =>
      hkeep' w hw e (hkeep w hw e he hval) hval⟩

/-- With two free pages a loop that returns 0 has entered its first page. -/
theorem loop_first (hx : x.Ok) (ht : x.IsTable 2 t) (hva : va % pageSize = 0)
    (hpa : pa % pageSize = 0) (hroom : 2 * pageSize ≤ x.sizeFree)
    (hval : PteValid (sv39Pa2PTE pa flags))
    (h : vmMmapLoop flags t (n + 1) x va pa = (0, y)) :
    y.leaf 2 t (position 2 va) = some (sv39Pa2PTE pa flags) := by
  obtain ⟨z, hwalk, hloop⟩ := walk_of_loop h
  obtain ⟨hstep, -, hfirst⟩ := walk_keeps hx ht hva hpa hwalk
  exact (loop_keeps hstep.ok hstep.table (advance_aligned hva) (advance_aligned hpa) hloop).2 _
    (position_lt 2 va) _ (hfirst hroom) hval

/-- A range that goes on behind the last position of the table goes on at the first one.  `m` pages
are left before the end, and nothing is in their way. -/
theorem loop_wraps {m : ℕ} (hx : x.Ok) (ht : x.IsTable 2 t) (href : x.refused = false)
    (hva : va % pageSize = 0) (hpa : pa % pageSize = 0) (hva' : va < 2 ^ 64) (hpa' : pa < 2 ^ 64)
    (hv : 0 < m → position 2 va = v) (hend : v + m = tableSpan)
    (hfree : ∀ i < m, ¬ x.ValidAt 2 t (v + i))
    (hmissing : 0 < m → x.missing 2 t v + tablesBehind v (m - 1) ≤ b)
    (hroom : (b + 2) * pageSize ≤ x.sizeFree)
    (hval : PteValid (sv39Pa2PTE (advance pa m) flags))
    (h : vmMmapLoop flags t (m + (n + 1)) x va pa = (0, z)) :
    z.leaf 2 t (position 2 (advance va m)) = some (sv39Pa2PTE (advance pa m) flags) := by
  rcases Nat.eq_zero_or_pos m with rfl | hm
  · rw [Nat.cast_zero, advance_zero hva', advance_zero hpa'] at *
    rw [Nat.zero_add] at h
    rw [Nat.add_mul] at hroom
    exact loop_first hx ht hva hpa (by omega) hval h
  -- the pages before the end
  have hloop := (loop_room flags (m - 1) hx ht href hva hpa (hv hm) (by omega) le_rfl
    ((Nat.mul_le_mul_right _ ((hmissing hm).trans (Nat.le_add_right b 2))).trans hroom)).mono
    (hmissing hm)
  rw [Nat.sub_add_cancel hm] at hloop
  obtain ⟨ret, y, heq, hstep, hcase⟩ := loop_spec flags m hx ht hva hpa hv hend.le
  rw [heq] at hloop
  rcases hcase (hloop.refused.trans href) with ⟨rfl, -⟩ | ⟨-, i, hi, hvalid⟩
  swap
  · exact absurd hvalid (hfree i hi)
  have haligned : ∀ {u : ℕ}, u % pageSize = 0 → advance u m % pageSize = 0 := by
    intro u hu
    rw [advance_eq]
    simp only [pageSize, pageOffset] at *
    omega
  rw [vmMmapLoop_add hva' hpa' heq] at h
  exact loop_first hstep.ok hstep.table (haligned hva) (haligned hpa) (hloop.left hroom) hval h

end EarlyMemory

end AcoOs
