/-
The states in which `kmem_obj_free` stops.

`slabFree` and `kmemObjFree` say only that an `ASSERT` has failed.  Here both functions are written
out one statement after the other, and a failed `ASSERT` returns what has been written until then.

* **`kmemObjFreeAt_eq`** — every `ASSERT` stands before the first write: where `kmemObjFree` fails,
  the cache and its slabs are as before the call.
-/
import AcoOs.SlabAllocator

namespace AcoOs

/-- `ASSERT(cond)`, when the state is `s`. -/
def assertIn {σ : Type} (s : σ) (cond : Prop) [Decidable cond] : Except σ Unit :=
  if cond then .ok () else .error s

/-- `slab_free`. -/
def slabFreeAt (s : Slab) (address : ℕ) : Except Slab Slab := do
  assertIn s (address ≠ 0)
  assertIn s (s.memObjStart ≤ address ∧
    address < s.memObjStart + s.objAll.toNat * s.objSize.toNat)
  let index := address - s.memObjStart
  assertIn s (index % s.objSize.toNat = 0)
  let index := index / s.objSize.toNat
  assertIn s (s.memIndexStart index = -1)
  if s.objFree = 0 then
    assertIn s (s.memFreeHead = -1 ∧ s.memFreeTail = -1)
    let s := { s with memFreeHead := index }
    let s := { s with memFreeTail := index }
    let s := { s with memIndexStart := Function.update s.memIndexStart index index }
    return { s with objFree := s.objFree + 1 }
  else
    assertIn s (s.memFreeHead ≠ -1 ∧ s.memFreeTail ≠ -1)
    let s := { s with
      memIndexStart := Function.update s.memIndexStart s.memFreeTail.toNat index }
    let s := { s with memIndexStart := Function.update s.memIndexStart index index }
    let s := { s with memFreeTail := index }
    return { s with objFree := s.objFree + 1 }

namespace Kmem

variable {c : Layout} {A : PageAllocator c}

/-- `slab_free` of an object in the slab of page `p`. -/
def slabFreeIn (x : Kmem A) (p address : ℕ) : Except (Kmem A) (Kmem A) :=
  match slabFreeAt (x.slabs p) address with
  | .error s => .error { x with slabs := Function.update x.slabs p s }
  | .ok s => .ok { x with slabs := Function.update x.slabs p s }

/-- The loops of `kmem_obj_free` up to the slab that the address lies in. -/
def scanAt (x : Kmem A) (ok : Slab → Bool) (address : ℕ) :
    List ℕ → Except (Kmem A) (Option ℕ)
  | [] => return none
  | p :: ps => do
    assertIn x ((x.pages p).pgtype = .slabAllocator ∧ (x.pages p).buddyFlags = flagHead)
    assertIn x (ok (x.slabs p))
    if x.Covers address p then return some p
    else scanAt x ok address ps

/-- `kmem_obj_free`. -/
def kmemObjFreeAt (x : Kmem A) (address : ℕ) : Except (Kmem A) (Kmem A) := do
  if address = 0 then return x else
  match ← x.scanAt (fun s => s.objFree < s.objAll) address x.cache.partialSlabs with
  | some p =>
    let x ← x.slabFreeIn p address
    let x := if (x.slabs p).objFree = (x.slabs p).objAll then
        { x with cache := { x.cache with
          partialSlabs := x.cache.partialSlabs.erase p, free := x.cache.free ++ [p] } }
      else x
    return { x with cache := { x.cache with objNum := int32 (x.cache.objNum + 1) } }
  | none =>
    match ← x.scanAt (fun s => s.objFree = 0) address x.cache.full with
    | none => return x
    | some p =>
      let x ← x.slabFreeIn p address
      let x := { x with cache := { x.cache with full := x.cache.full.erase p } }
      let x := if (x.slabs p).objFree = (x.slabs p).objAll then
          { x with cache := { x.cache with free := x.cache.free ++ [p] } }
        else { x with cache := { x.cache with partialSlabs := x.cache.partialSlabs ++ [p] } }
      return { x with cache := { x.cache with objNum := int32 (x.cache.objNum + 1) } }

end Kmem

/-! ### Every `ASSERT` stands before the first write -/

/-- The result of a function that stops in the state `s` if it fails. -/
def stopsIn {σ τ : Type} (s : σ) : Option τ → Except σ τ
  | none => .error s
  | some y => .ok y

section

variable {σ τ : Type} {s : σ} {cond : Prop} [Decidable cond]

theorem assertIn_pos (h : cond) : assertIn s cond = .ok () := if_pos h

theorem assertIn_neg (h : ¬ cond) : assertIn s cond = .error s := if_neg h

theorem stopsIn_if {f : Except σ τ} {r : Option τ} (hr : cond → f = stopsIn s r) :
    (assertIn s cond >>= fun _ => f) = stopsIn s (if cond then r else none) := by
  by_cases h : cond
  · rw [assertIn_pos h, if_pos h]
    exact hr h
  · rw [assertIn_neg h, if_neg h]
    rfl

end

/-- `slab_free` writes nothing before its last `ASSERT`. -/
theorem slabFreeAt_eq (s : Slab) (address : ℕ) :
    slabFreeAt s address = stopsIn s (slabFree s address) := by
  unfold slabFreeAt slabFree
  rw [ite_and]
  refine stopsIn_if fun _ => stopsIn_if fun _ => stopsIn_if fun _ => stopsIn_if fun _ => ?_
  by_cases h0 : s.objFree = 0
  · rw [if_pos h0, if_pos h0]
    exact stopsIn_if fun _ => rfl
  · rw [if_neg h0, if_neg h0]
    exact stopsIn_if fun _ => rfl

namespace Kmem

variable {c : Layout} {A : PageAllocator c}

theorem slabFreeIn_eq (x : Kmem A) (p address : ℕ) : x.slabFreeIn p address =
    stopsIn x ((slabFree (x.slabs p) address).map fun s =>
      { x with slabs := Function.update x.slabs p s }) := by
  unfold slabFreeIn
  rw [slabFreeAt_eq]
  cases slabFree (x.slabs p) address with
  | none =>
    show Except.error { x with slabs := Function.update x.slabs p (x.slabs p) } = _
    rw [Function.update_eq_self]
    rfl
  | some s => rfl

theorem scanAt_eq (x : Kmem A) (ok : Slab → Bool) (address : ℕ) (ps : List ℕ) :
    x.scanAt ok address ps = stopsIn x (x.scan ok address ps) := by
  induction ps with
  | nil => rfl
  | cons p ps ih =>
    have hnext : (if x.Covers address p then return some p else x.scanAt ok address ps) =
        stopsIn x (if x.Covers address p then some (some p) else x.scan ok address ps) := by
      by_cases hcov : x.Covers address p
      · rw [if_pos hcov, if_pos hcov]
        rfl
      · rw [if_neg hcov, if_neg hcov]
        exact ih
    refine (stopsIn_if fun _ => stopsIn_if fun _ => hnext).trans (congrArg (stopsIn x) ?_)
    rw [scan, ← ite_and]
    exact if_congr (by rw [and_assoc]) rfl rfl

/-- `kmem_obj_free` writes nothing before its last `ASSERT`. -/
theorem kmemObjFreeAt_eq (x : Kmem A) (address : ℕ) :
    x.kmemObjFreeAt address = stopsIn x (x.kmemObjFree address) := by
  unfold kmemObjFreeAt kmemObjFree
  by_cases h0 : address = 0
  · rw [if_pos h0, if_pos h0]
    rfl
  rw [if_neg h0, if_neg h0, scanAt_eq]
  cases x.scan (fun s => s.objFree < s.objAll) address x.cache.partialSlabs with
  | none => rfl
  | some found =>
    cases found with
    | some p =>
      show x.slabFreeIn p address >>= _ = _
      rw [slabFreeIn_eq]
      dsimp only
      cases slabFree (x.slabs p) address with
      | none => rfl
      | some s =>
        refine congrArg Except.ok ?_
        by_cases hall : s.objFree = s.objAll <;>
          simp only [Function.update_self, hall, ↓reduceIte]
    | none =>
      show (x.scanAt _ address x.cache.full >>= _) = _
      rw [scanAt_eq]
      dsimp only
      cases x.scan (fun s => s.objFree = 0) address x.cache.full with
      | none => rfl
      | some found =>
        cases found with
        | none => rfl
        | some p =>
          show x.slabFreeIn p address >>= _ = _
          rw [slabFreeIn_eq]
          dsimp only
          cases slabFree (x.slabs p) address with
          | none => rfl
          | some s =>
            refine congrArg Except.ok ?_
            by_cases hall : s.objFree = s.objAll <;>
              simp only [Function.update_self, hall, ↓reduceIte]

end Kmem

end AcoOs
