import Mathlib.Data.List.GetD
import Mathlib.Tactic

/-!
# Tables of bits

A table of bits is stored by rows in words of `w` bits. All rows have `rsize` words, so that column
`c` is a bit of the word `c / w` of its row.

* `BitTable.get` and `BitTable.set` — a bit is read, and set; `BitTable.setAll` — many bits are set.
* **`BitTable.get_set`**, **`BitTable.get_setAll`** — setting bits changes no other bit of the
  table.
-/

namespace BitTable

variable {w : ℕ}

def mask (w c : ℕ) : BitVec w := 1#w <<< (c % w)

/-- The bit in column `c` of row `i`. -/
def get (rsize : ℕ) (t : List (BitVec w)) (i c : ℕ) : Bool :=
  t.getD (rsize * i + c / w) 0 &&& mask w c != 0

/-- The bit in column `c` of row `i` is set. -/
def set (rsize : ℕ) (t : List (BitVec w)) (i c : ℕ) : List (BitVec w) :=
  t.modify (rsize * i + c / w) (· ||| mask w c)

def zeros (w n : ℕ) : List (BitVec w) := List.replicate n 0

@[simp] lemma length_set (rsize : ℕ) (t : List (BitVec w)) (i c : ℕ) :
    (set rsize t i c).length = t.length := by simp [set]

@[simp] lemma length_zeros (w n : ℕ) : (zeros w n).length = n := by simp [zeros]

lemma and_mask_bne (hw : 0 < w) (x : BitVec w) (c : ℕ) :
    (x &&& mask w c != 0) = x.getLsbD (c % w) := by
  have hlt : c % w < w := Nat.mod_lt c hw
  have hne : BitVec.twoPow w (c % w) ≠ 0#w := by
    intro h
    have htest := congrArg (·.getLsbD (c % w)) h
    simp [hlt] at htest
  rw [mask, ← BitVec.twoPow_eq, BitVec.and_twoPow]
  cases x.getLsbD (c % w) with
  | true => simpa using hne
  | false => simp

lemma get_eq (hw : 0 < w) (rsize : ℕ) (t : List (BitVec w)) (i c : ℕ) :
    get rsize t i c = (t.getD (rsize * i + c / w) 0).getLsbD (c % w) :=
  and_mask_bne hw _ c

lemma get_zeros (rsize n i c : ℕ) : get rsize (zeros w n) i c = false := by
  have hzero : (zeros w n).getD (rsize * i + c / w) 0 = 0 := by
    rcases Nat.lt_or_ge (rsize * i + c / w) n with hlt | hge
    · simp [zeros, hlt]
    · rw [List.getD_eq_default _ _ (by simpa using hge)]
  rw [get, hzero]
  simp

lemma get_congr {rsize : ℕ} {t t' : List (BitVec w)} {i i' : ℕ}
    (h : ∀ k < rsize, t[rsize * i + k]? = t'[rsize * i' + k]?) {c : ℕ} (hc : c / w < rsize) :
    get rsize t i c = get rsize t' i' c := by
  rw [get, get, List.getD_eq_getElem?_getD, List.getD_eq_getElem?_getD, h _ hc]

lemma cell_inj {rsize i j k l : ℕ} (hk : k < rsize) (hl : l < rsize)
    (h : rsize * i + k = rsize * j + l) : i = j ∧ k = l := by
  have hi : i = j := by
    have hdiv := congrArg (· / rsize) h
    have hpos : 0 < rsize := (Nat.zero_le k).trans_lt hk
    simp only [Nat.mul_add_div hpos, Nat.div_eq_of_lt hk, Nat.div_eq_of_lt hl, Nat.add_zero] at hdiv
    exact hdiv
  exact ⟨hi, by rw [hi] at h; omega⟩

/-- **Setting a bit** changes no other bit of the table. -/
theorem get_set (hw : 0 < w) {rsize : ℕ} {t : List (BitVec w)} {i c : ℕ} (hc : c / w < rsize)
    (hi : rsize * i + c / w < t.length) {i' c' : ℕ} (hc' : c' / w < rsize) :
    get rsize (set rsize t i c) i' c' = (get rsize t i' c' || (decide (i' = i) && decide (c' = c))) := by
  simp only [get_eq hw, set, List.getD_eq_getElem?_getD, List.getElem?_modify]
  by_cases hword : rsize * i + c / w = rsize * i' + c' / w
  · obtain ⟨rfl, hcol⟩ := cell_inj hc hc' hword
    have hsame : c' % w = c % w ↔ c' = c := by
      constructor
      · intro hmod
        rw [← Nat.div_add_mod c' w, ← Nat.div_add_mod c w, hmod, hcol]
      · intro h
        rw [h]
    rw [← hword, List.getElem?_eq_getElem hi]
    simp only [if_true, Option.map_eq_map, Option.map_some, Option.getD_some, BitVec.getLsbD_or,
      decide_true, Bool.true_and]
    rw [mask, ← BitVec.twoPow_eq, BitVec.getLsbD_twoPow, decide_eq_true (Nat.mod_lt c hw),
      Bool.true_and]
    congr 1
    simp [← hsame, eq_comm]
  · have hother : ¬(i' = i ∧ c' = c) := by
      rintro ⟨rfl, rfl⟩
      exact hword rfl
    simp [hword, hother]

def setAll (rsize : ℕ) (t : List (BitVec w)) (marks : List (ℕ × ℕ)) : List (BitVec w) :=
  marks.foldl (fun t m => set rsize t m.1 m.2) t

@[simp] lemma length_setAll (rsize : ℕ) (t : List (BitVec w)) (marks : List (ℕ × ℕ)) :
    (setAll rsize t marks).length = t.length := by
  induction marks generalizing t with
  | nil => rfl
  | cons m marks ih => rw [setAll, List.foldl_cons, ← setAll, ih, length_set]

/-- **Setting many bits** changes no other bit of the table. -/
theorem get_setAll (hw : 0 < w) {rsize : ℕ} {marks : List (ℕ × ℕ)} {t : List (BitVec w)}
    (hmarks : ∀ m ∈ marks, m.2 / w < rsize ∧ rsize * m.1 + m.2 / w < t.length) (i : ℕ) {c : ℕ}
    (hc : c / w < rsize) :
    get rsize (setAll rsize t marks) i c = (get rsize t i c || decide ((i, c) ∈ marks)) := by
  induction marks generalizing t with
  | nil => simp [setAll]
  | cons m marks ih =>
      obtain ⟨hm, hrest⟩ := List.forall_mem_cons.mp hmarks
      have hlength : ∀ m' ∈ marks, m'.2 / w < rsize ∧
          rsize * m'.1 + m'.2 / w < (set rsize t m.1 m.2).length := by simpa using hrest
      rw [setAll, List.foldl_cons, ← setAll, ih hlength, get_set hw hm.1 hm.2 hc, Bool.or_assoc]
      congr 1
      rw [← Bool.decide_and, ← Bool.decide_or]
      refine decide_eq_decide.mpr ?_
      rw [List.mem_cons, Prod.ext_iff]

lemma row_ext (hw : 0 < w) {rsize : ℕ} {row row' : List (BitVec w)} (h : row.length = rsize)
    (h' : row'.length = rsize) :
    row = row' ↔ ∀ c, c / w < rsize → get rsize row 0 c = get rsize row' 0 c := by
  refine ⟨fun heq c _ => by rw [heq], fun hbits => ?_⟩
  refine List.ext_getElem (h.trans h'.symm) fun k hk hk' => BitVec.eq_of_getLsbD_eq fun b hb => ?_
  have hdiv : (w * k + b) / w = k := by
    rw [Nat.mul_add_div hw, Nat.div_eq_of_lt hb, Nat.add_zero]
  have hmod : (w * k + b) % w = b := by rw [Nat.mul_add_mod, Nat.mod_eq_of_lt hb]
  have hbit := hbits (w * k + b) (by rw [hdiv, ← h]; exact hk)
  rw [get_eq hw, get_eq hw, hdiv, hmod, Nat.mul_zero, Nat.zero_add,
    List.getD_eq_getElem _ _ hk, List.getD_eq_getElem _ _ hk'] at hbit
  exact hbit

end BitTable
