import Espreso.Lib.Writes
import Mathlib.LinearAlgebra.Matrix.NonsingularInverse
import Mathlib.Tactic

/-!
# The material matrix of a solid

`StructuralMechanics3D::assembleMaterialMatrix` stores the matrix between strains and stresses in
packed order: the diagonal, the upper and the lower triangle.  `processElement` unpacks it.

* `LinearElasticProperties.compliance` — the matrix that the normal block has to invert.
* **`unpack_pack`** — a table that is packed in this order is found again.
* **`rightMatrix_iff`** — the orthotropic ratio `miZX` is turned upside down, which does no harm
  only if `miXZ` vanishes or the moduli in `x` and `z` agree up to their signs.
-/

namespace Espreso.Material

/-! ## The code -/

/-- `LinearElasticPropertiesConfiguration::MODEL` -/
inductive Model where
  | ISOTROPIC
  | ORTHOTROPIC
  | ANISOTROPIC
deriving DecidableEq

/-- The values of the tensors at a point, by row and column. -/
structure LinearElasticProperties where
  model : Model
  (poisson_ratio young_modulus shear_modulus anisotropic : ℕ → ℕ → ℚ)

namespace LinearElasticProperties

variable (mat : LinearElasticProperties)

def isotropicValues : List ℚ :=
  let Ex := mat.young_modulus 0 0
  let miXY := mat.poisson_ratio 0 0
  let EE := Ex / ((1 + miXY) * (1 - 2 * miXY))
  [EE * (1 - miXY), EE * (1 - miXY), EE * (1 - miXY),
    EE * (1 / 2 - miXY), EE * (1 / 2 - miXY), EE * (1 / 2 - miXY),
    EE * miXY, EE * miXY, 0, 0, 0, EE * miXY, 0, 0, 0, 0, 0, 0, 0, 0, 0,
    EE * miXY, EE * miXY, EE * miXY, 0, 0, 0, 0, 0, 0, 0, 0, 0, 0, 0, 0]

def anisotropicValues : List ℚ :=
  let get := mat.anisotropic
  [get 0 0, get 1 1, get 2 2, get 3 3, get 4 4, get 5 5,
    get 0 1, get 0 2, get 0 3, get 0 4, get 0 5, get 1 2, get 1 3, get 1 4, get 1 5,
    get 2 3, get 2 4, get 2 5, get 3 4, get 3 5, get 4 5,
    get 0 1, get 0 2, get 1 2, get 0 3, get 1 3, get 2 3, get 0 4, get 1 4, get 2 4, get 3 4,
    get 0 5, get 1 5, get 2 5, get 3 5, get 4 5]

/-- `miYX`, the ratio the other way round. -/
def miYX : ℚ := mat.poisson_ratio 0 0 * mat.young_modulus 1 1 / mat.young_modulus 0 0

def miZY : ℚ := mat.poisson_ratio 2 2 * mat.young_modulus 2 2 / mat.young_modulus 1 1

/-- `miZX`, with the moduli as the code divides them. -/
def miZX : ℚ := mat.poisson_ratio 1 1 * mat.young_modulus 0 0 / mat.young_modulus 2 2

def ksi : ℚ :=
  1 - (mat.poisson_ratio 0 0 * mat.miYX + mat.poisson_ratio 2 2 * mat.miZY
      + mat.poisson_ratio 1 1 * mat.miZX)
    - (mat.poisson_ratio 0 0 * mat.poisson_ratio 2 2 * mat.miZX
      + mat.miYX * mat.miZY * mat.poisson_ratio 1 1)

def dxx : ℚ := mat.young_modulus 0 0 * (1 - mat.poisson_ratio 2 2 * mat.miZY) / mat.ksi

def dxy : ℚ :=
  mat.young_modulus 1 1 * (mat.poisson_ratio 0 0 + mat.poisson_ratio 1 1 * mat.miZY) / mat.ksi

def dxz : ℚ :=
  mat.young_modulus 2 2 * (mat.poisson_ratio 1 1 + mat.poisson_ratio 2 2 * mat.poisson_ratio 0 0)
    / mat.ksi

def dyy : ℚ := mat.young_modulus 1 1 * (1 - mat.poisson_ratio 1 1 * mat.miZX) / mat.ksi

def dyz : ℚ :=
  mat.young_modulus 2 2 * (mat.poisson_ratio 2 2 + mat.miYX * mat.poisson_ratio 1 1) / mat.ksi

def dzz : ℚ := mat.young_modulus 2 2 * (1 - mat.miYX * mat.poisson_ratio 0 0) / mat.ksi

def orthotropicValues : List ℚ :=
  [mat.dxx, mat.dyy, mat.dzz,
    mat.shear_modulus 0 0, mat.shear_modulus 2 2, mat.shear_modulus 1 1,
    mat.dxy, mat.dxz, 0, 0, 0, mat.dyz, 0, 0, 0, 0, 0, 0, 0, 0, 0,
    mat.dxy, mat.dxz, mat.dyz, 0, 0, 0, 0, 0, 0, 0, 0, 0, 0, 0, 0]

/-- `assembleMaterialMatrix`: the 36 values of a node. -/
def assembleMaterialMatrix : List ℚ :=
  match mat.model with
  | .ISOTROPIC => mat.isotropicValues
  | .ANISOTROPIC => mat.anisotropicValues
  | .ORTHOTROPIC => mat.orthotropicValues

end LinearElasticProperties

/-- The positions in the order of the three loops of `processElement`. -/
def positions : List (ℕ × ℕ) :=
  (List.range 6).map (fun i => (i, i))
    ++ (List.range 6).flatMap (fun i => (List.range' (i + 1) (6 - (i + 1))).map fun j => (i, j))
    ++ (List.range 6).flatMap fun i => (List.range i).map fun j => (i, j)

/-- The loops that write the values `gpK(0, k++)` to `Ce`. -/
def unpack (gpK : List ℚ) : ℕ × ℕ → ℚ :=
  (positions.zip gpK).foldl (fun Ce w => Function.update Ce w.1 w.2) fun _ => 0

lemma positions_nodup : positions.Nodup := by decide

lemma mem_positions {i j : ℕ} (hi : i < 6) (hj : j < 6) : (i, j) ∈ positions := by
  have hall : ∀ i < 6, ∀ j < 6, (i, j) ∈ positions := by decide
  exact hall i hi j hj

/-- **What is packed in this order** is found at its position. -/
theorem unpack_pack (f : ℕ × ℕ → ℚ) {i j : ℕ} (hi : i < 6) (hj : j < 6) :
    unpack (positions.map f) (i, j) = f (i, j) := by
  have hkeys : ((positions.zip (positions.map f)).map Prod.fst) = positions :=
    List.map_fst_zip (by rw [List.length_map])
  have hmem : ((i, j), f (i, j)) ∈ positions.zip (positions.map f) := by
    rw [← List.map_prod_left_eq_zip]
    exact List.mem_map_of_mem (mem_positions hi hj)
  exact Writes.foldl_update_of_nodup (by rw [hkeys]; exact positions_nodup) _ hmem

/-! ## What the matrix is for -/

namespace LinearElasticProperties

variable (mat : LinearElasticProperties)

/-- The matrix that `processElement` works with. -/
def Ce (i j : ℕ) : ℚ := unpack mat.assembleMaterialMatrix (i, j)

/-- The modulus of an axis; an isotropic material has one for all. -/
def E (i : ℕ) : ℚ :=
  match mat.model with
  | .ISOTROPIC => mat.young_modulus 0 0
  | _ => mat.young_modulus i i

/-- The Poisson ratio of two axes, `XY`, `XZ` and `YZ` for `i < j`, and the ratio the other way
round from it. -/
def mi (i j : ℕ) : ℚ :=
  if i < j then given i j else given j i * mat.E i / mat.E j
where
  /-- The ratios of the configuration are in the order `XY`, `XZ`, `YZ`. -/
  given (i j : ℕ) : ℚ :=
    match mat.model with
    | .ISOTROPIC => mat.poisson_ratio 0 0
    | _ => mat.poisson_ratio (i + j - 1) (i + j - 1)

/-- The shear modulus of a row: the rows are `XY`, `YZ` and `XZ`, the moduli of the configuration
`XY`, `XZ` and `YZ`. -/
def G (i : ℕ) : ℚ :=
  match mat.model with
  | .ISOTROPIC => mat.young_modulus 0 0 / (2 * (1 + mat.poisson_ratio 0 0))
  | _ => if i = 3 then mat.shear_modulus 0 0 else mat.shear_modulus (6 - i) (6 - i)

def compliance : Matrix (Fin 3) (Fin 3) ℚ :=
  Matrix.of fun i j =>
    if i.val = j.val then 1 / mat.E i.val else -mat.mi i.val j.val / mat.E i.val

def normalBlock : Matrix (Fin 3) (Fin 3) ℚ := Matrix.of fun i j => mat.Ce i.val j.val

def Regular : Prop := (∀ i < 3, mat.E i ≠ 0) ∧ mat.compliance.det ≠ 0

def isotropic : LinearElasticProperties := { mat with model := .ISOTROPIC }

/-- One modulus, one ratio, and the shear modulus that belongs to them. -/
structure EqualParameters : Prop where
  young : ∀ i < 3, mat.young_modulus i i = mat.young_modulus 0 0
  poisson : ∀ i < 3, mat.poisson_ratio i i = mat.poisson_ratio 0 0
  shear : ∀ i < 3, mat.shear_modulus i i
    = mat.young_modulus 0 0 / (2 * (1 + mat.poisson_ratio 0 0))

/-- What the unpacked matrix has to be. -/
structure RightMatrix : Prop where
  symmetric : ∀ i < 6, ∀ j < 6, mat.Ce i j = mat.Ce j i
  normal : mat.model ≠ .ANISOTROPIC → mat.normalBlock = mat.compliance⁻¹
  shear : mat.model ≠ .ANISOTROPIC → ∀ i < 6, ∀ j < 6, 3 ≤ i ∨ 3 ≤ j →
    mat.Ce i j = if i = j then mat.G i else 0
  equal : mat.model = .ORTHOTROPIC → mat.EqualParameters →
    ∀ i < 6, ∀ j < 6, mat.Ce i j = mat.isotropic.Ce i j
  anisotropic : mat.model = .ANISOTROPIC →
    ∀ i < 6, ∀ j < 6, mat.Ce i j = mat.anisotropic (min i j) (max i j)

/-! ## The three models -/

/-- A matrix with a symmetric normal block and a diagonal shear part. -/
def blocks (xx yy zz xy xz yz : ℚ) (shear : ℕ → ℚ) (p : ℕ × ℕ) : ℚ :=
  match p with
  | (0, 0) => xx
  | (1, 1) => yy
  | (2, 2) => zz
  | (0, 1) => xy
  | (1, 0) => xy
  | (0, 2) => xz
  | (2, 0) => xz
  | (1, 2) => yz
  | (2, 1) => yz
  | (i, j) => if i = j then shear i else 0

lemma isotropicValues_eq : mat.isotropicValues =
    positions.map (
      let EE := mat.young_modulus 0 0
        / ((1 + mat.poisson_ratio 0 0) * (1 - 2 * mat.poisson_ratio 0 0))
      blocks (EE * (1 - mat.poisson_ratio 0 0)) (EE * (1 - mat.poisson_ratio 0 0))
        (EE * (1 - mat.poisson_ratio 0 0)) (EE * mat.poisson_ratio 0 0)
        (EE * mat.poisson_ratio 0 0) (EE * mat.poisson_ratio 0 0)
        fun _ => EE * (1 / 2 - mat.poisson_ratio 0 0)) := rfl

lemma orthotropicValues_eq : mat.orthotropicValues =
    positions.map (blocks mat.dxx mat.dyy mat.dzz mat.dxy mat.dxz mat.dyz
      fun i => if i = 3 then mat.shear_modulus 0 0 else mat.shear_modulus (6 - i) (6 - i)) := rfl

lemma anisotropicValues_eq : mat.anisotropicValues =
    positions.map fun p => mat.anisotropic (min p.1 p.2) (max p.1 p.2) := rfl

lemma blocks_comm (xx yy zz xy xz yz : ℚ) (shear : ℕ → ℚ) {i j : ℕ} (hi : i < 6) (hj : j < 6) :
    blocks xx yy zz xy xz yz shear (i, j) = blocks xx yy zz xy xz yz shear (j, i) := by
  interval_cases i <;> interval_cases j <;> rfl

lemma blocks_shear (xx yy zz xy xz yz : ℚ) (shear : ℕ → ℚ) {i j : ℕ} (hi : i < 6) (hj : j < 6)
    (h : 3 ≤ i ∨ 3 ≤ j) :
    blocks xx yy zz xy xz yz shear (i, j) = if i = j then shear i else 0 := by
  interval_cases i <;> interval_cases j <;> first | rfl | omega

lemma blocks_congr (xx yy zz xy xz yz : ℚ) {shear shear' : ℕ → ℚ} {i j : ℕ}
    (h : ∀ i, 3 ≤ i → i < 6 → shear i = shear' i) (hi : i < 6) (hj : j < 6) :
    blocks xx yy zz xy xz yz shear (i, j) = blocks xx yy zz xy xz yz shear' (i, j) := by
  rcases Nat.lt_or_ge i 3 with hi3 | hi3
  · interval_cases i <;> interval_cases j <;> rfl
  · rw [blocks_shear _ _ _ _ _ _ _ hi hj (Or.inl hi3),
      blocks_shear _ _ _ _ _ _ _ hi hj (Or.inl hi3), h i hi3 hi]

variable {mat}

lemma Ce_isotropic (h : mat.model = .ISOTROPIC) {i j : ℕ} (hi : i < 6) (hj : j < 6) :
    mat.Ce i j =
      let EE := mat.young_modulus 0 0
        / ((1 + mat.poisson_ratio 0 0) * (1 - 2 * mat.poisson_ratio 0 0))
      blocks (EE * (1 - mat.poisson_ratio 0 0)) (EE * (1 - mat.poisson_ratio 0 0))
        (EE * (1 - mat.poisson_ratio 0 0)) (EE * mat.poisson_ratio 0 0)
        (EE * mat.poisson_ratio 0 0) (EE * mat.poisson_ratio 0 0)
        (fun _ => EE * (1 / 2 - mat.poisson_ratio 0 0)) (i, j) := by
  rw [Ce, assembleMaterialMatrix, h, isotropicValues_eq, unpack_pack _ hi hj]

lemma Ce_orthotropic (h : mat.model = .ORTHOTROPIC) {i j : ℕ} (hi : i < 6) (hj : j < 6) :
    mat.Ce i j = blocks mat.dxx mat.dyy mat.dzz mat.dxy mat.dxz mat.dyz
      (fun i => if i = 3 then mat.shear_modulus 0 0 else mat.shear_modulus (6 - i) (6 - i))
      (i, j) := by
  rw [Ce, assembleMaterialMatrix, h, orthotropicValues_eq, unpack_pack _ hi hj]

lemma Ce_anisotropic (h : mat.model = .ANISOTROPIC) {i j : ℕ} (hi : i < 6) (hj : j < 6) :
    mat.Ce i j = mat.anisotropic (min i j) (max i j) := by
  rw [Ce, assembleMaterialMatrix, h, anisotropicValues_eq, unpack_pack _ hi hj]

lemma Ce_comm {i j : ℕ} (hi : i < 6) (hj : j < 6) : mat.Ce i j = mat.Ce j i := by
  rcases h : mat.model
  · rw [Ce_isotropic h hi hj, Ce_isotropic h hj hi]
    exact blocks_comm _ _ _ _ _ _ _ hi hj
  · rw [Ce_orthotropic h hi hj, Ce_orthotropic h hj hi]
    exact blocks_comm _ _ _ _ _ _ _ hi hj
  · rw [Ce_anisotropic h hi hj, Ce_anisotropic h hj hi, min_comm, max_comm]

/-! ### Isotropic materials -/

lemma compliance_isotropic (h : mat.model = .ISOTROPIC) (hE : mat.young_modulus 0 0 ≠ 0) :
    mat.compliance = !![1 / mat.young_modulus 0 0,
        -mat.poisson_ratio 0 0 / mat.young_modulus 0 0,
        -mat.poisson_ratio 0 0 / mat.young_modulus 0 0;
      -mat.poisson_ratio 0 0 / mat.young_modulus 0 0, 1 / mat.young_modulus 0 0,
        -mat.poisson_ratio 0 0 / mat.young_modulus 0 0;
      -mat.poisson_ratio 0 0 / mat.young_modulus 0 0,
        -mat.poisson_ratio 0 0 / mat.young_modulus 0 0, 1 / mat.young_modulus 0 0] := by
  ext i j
  fin_cases i <;> fin_cases j <;> simp [compliance, mi, mi.given, E, h, hE]

lemma det_compliance_isotropic (h : mat.model = .ISOTROPIC) (hE : mat.young_modulus 0 0 ≠ 0) :
    mat.compliance.det = (1 + mat.poisson_ratio 0 0) ^ 2 * (1 - 2 * mat.poisson_ratio 0 0)
      / mat.young_modulus 0 0 ^ 3 := by
  rw [compliance_isotropic h hE, Matrix.det_fin_three]
  simp only [Matrix.of_apply, Matrix.cons_val]
  field_simp
  ring

lemma Regular.isotropic_factors (hreg : mat.Regular) (h : mat.model = .ISOTROPIC) :
    mat.young_modulus 0 0 ≠ 0 ∧ 1 + mat.poisson_ratio 0 0 ≠ 0
      ∧ 1 - 2 * mat.poisson_ratio 0 0 ≠ 0 := by
  have hE : mat.young_modulus 0 0 ≠ 0 := by
    have h0 := hreg.1 0 (by norm_num)
    rwa [E, h] at h0
  have hdet := hreg.2
  rw [det_compliance_isotropic h hE] at hdet
  refine ⟨hE, fun h0 => hdet ?_, fun h0 => hdet ?_⟩
  · rw [h0]
    simp
  · rw [h0]
    simp

lemma mul_eq_one_iff {a b c d e f g h k xx yy zz xy xz yz : ℚ} :
    !![a, b, c; d, e, f; g, h, k] * !![xx, xy, xz; xy, yy, yz; xz, yz, zz] = 1 ↔
      (a * xx + b * xy + c * xz = 1 ∧ a * xy + b * yy + c * yz = 0 ∧ a * xz + b * yz + c * zz = 0)
      ∧ (d * xx + e * xy + f * xz = 0 ∧ d * xy + e * yy + f * yz = 1
        ∧ d * xz + e * yz + f * zz = 0)
      ∧ (g * xx + h * xy + k * xz = 0 ∧ g * xy + h * yy + k * yz = 0
        ∧ g * xz + h * yz + k * zz = 1) := by
  rw [Matrix.mul_fin_three, Matrix.one_fin_three, ← Matrix.ext_iff]
  simp [Fin.forall_fin_succ]

lemma normalBlock_eq {xx yy zz xy xz yz : ℚ} {shear : ℕ → ℚ}
    (h : ∀ i < 6, ∀ j < 6, mat.Ce i j = blocks xx yy zz xy xz yz shear (i, j)) :
    mat.normalBlock = !![xx, xy, xz; xy, yy, yz; xz, yz, zz] := by
  ext i j
  rw [normalBlock, Matrix.of_apply, h _ (by omega) _ (by omega)]
  fin_cases i <;> fin_cases j <;> rfl

lemma normalBlock_isotropic (h : mat.model = .ISOTROPIC) (hreg : mat.Regular) :
    mat.normalBlock = mat.compliance⁻¹ := by
  obtain ⟨hE, hmi, hmi'⟩ := hreg.isotropic_factors h
  have hEE : mat.young_modulus 0 0
      / ((1 + mat.poisson_ratio 0 0) * (1 - 2 * mat.poisson_ratio 0 0))
      * ((1 + mat.poisson_ratio 0 0) * (1 - 2 * mat.poisson_ratio 0 0))
      = mat.young_modulus 0 0 := div_mul_cancel₀ _ (mul_ne_zero hmi hmi')
  rw [compliance_isotropic h hE,
    normalBlock_eq fun i hi j hj => Ce_isotropic h hi hj]
  refine (Matrix.inv_eq_right_inv (mul_eq_one_iff.mpr ?_)).symm
  generalize mat.young_modulus 0 0
    / ((1 + mat.poisson_ratio 0 0) * (1 - 2 * mat.poisson_ratio 0 0)) = EE at hEE
  generalize mat.young_modulus 0 0 = E at *
  generalize mat.poisson_ratio 0 0 = mi at *
  refine ⟨⟨?_, ?_, ?_⟩, ⟨?_, ?_, ?_⟩, ?_, ?_, ?_⟩ <;> field_simp <;>
    first | linear_combination hEE | ring1

/-! ### Orthotropic materials -/

lemma compliance_orthotropic (h : mat.model = .ORTHOTROPIC) (hE : ∀ i < 3, mat.E i ≠ 0) :
    mat.compliance = !![1 / mat.young_modulus 0 0,
        -mat.poisson_ratio 0 0 / mat.young_modulus 0 0,
        -mat.poisson_ratio 1 1 / mat.young_modulus 0 0;
      -mat.poisson_ratio 0 0 / mat.young_modulus 0 0, 1 / mat.young_modulus 1 1,
        -mat.poisson_ratio 2 2 / mat.young_modulus 1 1;
      -mat.poisson_ratio 1 1 / mat.young_modulus 0 0,
        -mat.poisson_ratio 2 2 / mat.young_modulus 1 1, 1 / mat.young_modulus 2 2] := by
  have hEx := hE 0 (by norm_num)
  have hEy := hE 1 (by norm_num)
  have hEz := hE 2 (by norm_num)
  simp only [E, h] at hEx hEy hEz
  ext i j
  fin_cases i <;> fin_cases j <;>
    simp [compliance, mi, mi.given, E, h] <;> field_simp

lemma young_ne_zero (h : mat.model = .ORTHOTROPIC) (hE : ∀ i < 3, mat.E i ≠ 0) :
    mat.young_modulus 0 0 ≠ 0 ∧ mat.young_modulus 1 1 ≠ 0 ∧ mat.young_modulus 2 2 ≠ 0 := by
  have hEx := hE 0 (by norm_num)
  have hEy := hE 1 (by norm_num)
  have hEz := hE 2 (by norm_num)
  simp only [E, h] at hEx hEy hEz
  exact ⟨hEx, hEy, hEz⟩

/-- The ratio `miZX` as it is given by `miXZ`, or an input that does not tell the two apart. -/
def Harmless (mat : LinearElasticProperties) : Prop :=
  mat.poisson_ratio 1 1 = 0 ∨ mat.young_modulus 0 0 ^ 2 = mat.young_modulus 2 2 ^ 2

lemma Harmless.miZX_eq (hmat : mat.Harmless) (hEx : mat.young_modulus 0 0 ≠ 0)
    (hEz : mat.young_modulus 2 2 ≠ 0) :
    mat.miZX = mat.poisson_ratio 1 1 * mat.young_modulus 2 2 / mat.young_modulus 0 0 := by
  rw [miZX]
  rcases hmat with h | h
  · rw [h, zero_mul, zero_mul, zero_div, zero_div]
  · rw [div_eq_div_iff hEz hEx]
    linear_combination mat.poisson_ratio 1 1 * h

lemma Harmless.det_compliance (hmat : mat.Harmless) (h : mat.model = .ORTHOTROPIC)
    (hE : ∀ i < 3, mat.E i ≠ 0) :
    mat.compliance.det = mat.ksi
      / (mat.young_modulus 0 0 * mat.young_modulus 1 1 * mat.young_modulus 2 2) := by
  obtain ⟨hEx, hEy, hEz⟩ := young_ne_zero h hE
  rw [compliance_orthotropic h hE, Matrix.det_fin_three, ksi, hmat.miZX_eq hEx hEz, miYX, miZY]
  simp only [Matrix.of_apply, Matrix.cons_val]
  field_simp
  ring

lemma normalBlock_orthotropic (h : mat.model = .ORTHOTROPIC) (hreg : mat.Regular)
    (hmat : mat.Harmless) : mat.normalBlock = mat.compliance⁻¹ := by
  obtain ⟨hEx, hEy, hEz⟩ := young_ne_zero h hreg.1
  have hksi : mat.ksi ≠ 0 := fun h0 => hreg.2 (by
    rw [hmat.det_compliance h hreg.1, h0, zero_div])
  have hksi_eq := ksi.eq_1 mat
  rw [hmat.miZX_eq hEx hEz, miYX, miZY] at hksi_eq
  rw [compliance_orthotropic h hreg.1,
    normalBlock_eq fun i hi j hj => Ce_orthotropic h hi hj]
  refine (Matrix.inv_eq_right_inv (mul_eq_one_iff.mpr ?_)).symm
  rw [dxx, dxy, dxz, dyy, dyz, dzz, hmat.miZX_eq hEx hEz, miYX, miZY]
  generalize mat.ksi = ksi at *
  field_simp at hksi_eq
  refine ⟨⟨?_, ?_, ?_⟩, ⟨?_, ?_, ?_⟩, ?_, ?_, ?_⟩ <;> field_simp <;>
    first | linear_combination -hksi_eq | ring1

lemma harmless_of_normalBlock (h : mat.model = .ORTHOTROPIC) (hreg : mat.Regular)
    (hinv : mat.normalBlock = mat.compliance⁻¹) : mat.Harmless := by
  obtain ⟨hEx, hEy, hEz⟩ := young_ne_zero h hreg.1
  have hmul : mat.compliance * mat.normalBlock = 1 := by
    rw [hinv]
    exact Matrix.mul_nonsing_inv _ (isUnit_iff_ne_zero.mpr hreg.2)
  rw [compliance_orthotropic h hreg.1, normalBlock_eq fun i hi j hj => Ce_orthotropic h hi hj,
    mul_eq_one_iff] at hmul
  obtain ⟨⟨hxx, hxy, -⟩, -⟩ := hmul
  have hksi : mat.ksi ≠ 0 := by
    intro h0
    simp [dxx, dxy, dxz, h0] at hxx
  have hksi_eq := ksi.eq_1 mat
  have hZX : mat.miZX * mat.young_modulus 2 2
      = mat.poisson_ratio 1 1 * mat.young_modulus 0 0 := by
    rw [miZX, div_mul_cancel₀ _ hEz]
  rw [miYX, miZY] at hksi_eq
  simp only [dxx, dxy, dxz, dyy, dyz, miYX, miZY] at hxx hxy
  rw [Harmless]
  generalize mat.ksi = ksi at *
  generalize mat.miZX = miZX at *
  generalize mat.young_modulus 0 0 = Ex at *
  generalize mat.young_modulus 1 1 = Ey at *
  generalize mat.young_modulus 2 2 = Ez at *
  generalize mat.poisson_ratio 0 0 = miXY at *
  generalize mat.poisson_ratio 1 1 = miXZ at *
  generalize mat.poisson_ratio 2 2 = miYZ at *
  field_simp at hksi_eq hxx hxy
  have hfirst : (Ex * miZX - miXZ * Ez) * (miXZ + miXY * miYZ) = 0 := by
    refine (mul_eq_zero.mp ?_).resolve_left hEy
    linear_combination hxx + hksi_eq
  have hsecond : (Ex * miZX - miXZ * Ez) * (miXY * miXZ) = 0 := by
    refine (mul_eq_zero.mp ?_).resolve_left hEy
    linear_combination hxy
  have hboth : (Ex * miZX - miXZ * Ez) * miXZ ^ 2 = 0 := by
    linear_combination miXZ * hfirst - miYZ * hsecond
  rcases mul_eq_zero.mp hboth with hratio | hXZ
  · rcases eq_or_ne miXZ 0 with hXZ | hXZ
    · exact Or.inl hXZ
    · refine Or.inr (mul_left_cancel₀ hXZ ?_)
      linear_combination Ez * hratio - Ex * hZX
  · exact Or.inl (pow_eq_zero_iff two_ne_zero |>.mp hXZ)

/-! ## The result -/

lemma stiffness_of_equal {E mi : ℚ} (hmi : 1 + mi ≠ 0) (hmi' : 1 - 2 * mi ≠ 0) :
    E * (1 - mi * mi) / ((1 + mi) ^ 2 * (1 - 2 * mi))
        = E / ((1 + mi) * (1 - 2 * mi)) * (1 - mi)
      ∧ E * (mi + mi * mi) / ((1 + mi) ^ 2 * (1 - 2 * mi))
        = E / ((1 + mi) * (1 - 2 * mi)) * mi
      ∧ E / (2 * (1 + mi)) = E / ((1 + mi) * (1 - 2 * mi)) * (1 / 2 - mi) := by
  have hEE : E / ((1 + mi) * (1 - 2 * mi)) * ((1 + mi) * (1 - 2 * mi)) = E :=
    div_mul_cancel₀ _ (mul_ne_zero hmi hmi')
  have hksi : (1 + mi) ^ 2 * (1 - 2 * mi) ≠ 0 := mul_ne_zero (pow_ne_zero 2 hmi) hmi'
  refine ⟨?_, ?_, ?_⟩
  · rw [div_eq_iff hksi]
    linear_combination (-(1 - mi) * (1 + mi)) * hEE
  · rw [div_eq_iff hksi]
    linear_combination (-mi * (1 + mi)) * hEE
  · rw [div_eq_iff (mul_ne_zero two_ne_zero hmi)]
    linear_combination -hEE

lemma EqualParameters.Ce_eq (heq : mat.EqualParameters) (h : mat.model = .ORTHOTROPIC)
    (hreg : mat.Regular) {i j : ℕ} (hi : i < 6) (hj : j < 6) :
    mat.Ce i j = mat.isotropic.Ce i j := by
  obtain ⟨hyoung, hpoisson, hshear⟩ := heq
  have hE1 := hyoung 1 (by norm_num)
  have hE2 := hyoung 2 (by norm_num)
  have hmi1 := hpoisson 1 (by norm_num)
  have hmi2 := hpoisson 2 (by norm_num)
  have hG0 := hshear 0 (by norm_num)
  have hG1 := hshear 1 (by norm_num)
  have hG2 := hshear 2 (by norm_num)
  have hEx := (young_ne_zero h hreg.1).1
  have hksi : mat.ksi = (1 + mat.poisson_ratio 0 0) ^ 2 * (1 - 2 * mat.poisson_ratio 0 0) := by
    rw [ksi, miYX, miZY, miZX, hE1, hE2, hmi1, hmi2]
    field_simp
    ring
  have hksi_ne : mat.ksi ≠ 0 := fun h0 => hreg.2 (by
    rw [Harmless.det_compliance (Or.inr (by rw [hE2])) h hreg.1, h0, zero_div])
  obtain ⟨hmi, hmi'⟩ := mul_ne_zero_iff.mp (hksi ▸ hksi_ne)
  replace hmi := pow_ne_zero_iff two_ne_zero |>.mp hmi
  obtain ⟨hdiag, hoff, hG⟩ := stiffness_of_equal (E := mat.young_modulus 0 0) hmi hmi'
  have hmodel : mat.isotropic.model = .ISOTROPIC := rfl
  have hiso : mat.isotropic.Ce i j = blocks _ _ _ _ _ _ _ (i, j) := Ce_isotropic hmodel hi hj
  have hshear : ∀ i, 3 ≤ i → i < 6 →
      (if i = 3 then mat.shear_modulus 0 0 else mat.shear_modulus (6 - i) (6 - i))
        = mat.young_modulus 0 0
          / ((1 + mat.poisson_ratio 0 0) * (1 - 2 * mat.poisson_ratio 0 0))
          * (1 / 2 - mat.poisson_ratio 0 0) := by
    intro i hi3 hi6
    interval_cases i
    · exact hG0.trans hG
    · exact hG2.trans hG
    · exact hG1.trans hG
  rw [hiso, Ce_orthotropic h hi hj, dxx, dxy, dxz, dyy, dyz, dzz, miYX, miZY, miZX, hksi, hE1, hE2,
    hmi1, hmi2, mul_div_cancel_right₀ _ hEx, hdiag, hoff]
  exact blocks_congr _ _ _ _ _ _ hshear hi hj

/-- **The matrix is right** exactly if the wrong ratio is not seen. -/
theorem rightMatrix_iff (mat : LinearElasticProperties)
    (hreg : mat.model ≠ .ANISOTROPIC → mat.Regular) :
    mat.RightMatrix ↔ (mat.model = .ORTHOTROPIC → mat.Harmless) := by
  constructor
  · intro hright h
    have hne : mat.model ≠ .ANISOTROPIC := by rw [h]; decide
    exact harmless_of_normalBlock h (hreg hne) (hright.normal hne)
  · intro hmat
    refine ⟨fun i hi j hj => Ce_comm hi hj, fun hne => ?_, fun hne i hi j hj hij => ?_,
      fun h heq i hi j hj => heq.Ce_eq h (hreg (by rw [h]; decide)) hi hj,
      fun h i hi j hj => Ce_anisotropic h hi hj⟩
    · rcases h : mat.model
      · exact normalBlock_isotropic h (hreg hne)
      · exact normalBlock_orthotropic h (hreg hne) (hmat h)
      · exact absurd h hne
    · rcases h : mat.model
      · obtain ⟨hE, hmi, hmi'⟩ := (hreg hne).isotropic_factors h
        rw [Ce_isotropic h hi hj]
        refine (blocks_shear _ _ _ _ _ _ _ hi hj hij).trans (if_congr Iff.rfl ?_ rfl)
        simp only [G, h]
        exact (stiffness_of_equal hmi hmi').2.2.symm
      · rw [Ce_orthotropic h hi hj, blocks_shear _ _ _ _ _ _ _ hi hj hij]
        simp only [G, h]
      · exact absurd h hne

/-! ## Two materials -/

/-- A material with a Poisson ratio `XZ`, and the modulus in `x` left open. -/
def sheared (Ex : ℚ) : LinearElasticProperties where
  model := .ORTHOTROPIC
  poisson_ratio i j := if i = 1 ∧ j = 1 then 1 / 2 else 0
  young_modulus i _ := if i = 0 then Ex else 1
  shear_modulus _ _ := 1
  anisotropic _ _ := 0

lemma sheared_regular {Ex : ℚ} (hEx : 1 / 4 < Ex) : (sheared Ex).Regular := by
  have hpos : 0 < Ex := lt_trans (by norm_num) hEx
  have hE : ∀ i < 3, (sheared Ex).E i ≠ 0 := by
    intro i hi
    interval_cases i
    · exact hpos.ne'
    · exact one_ne_zero
    · exact one_ne_zero
  have hdet : (sheared Ex).compliance.det = (Ex - 1 / 4) / Ex ^ 2 := by
    rw [compliance_orthotropic rfl hE, Matrix.det_fin_three]
    simp [sheared]
    field_simp
    ring
  refine ⟨hE, ?_⟩
  rw [hdet]
  exact div_ne_zero (sub_pos.mpr hEx).ne' (pow_ne_zero 2 hpos.ne')

/-- A material with equal moduli in `x` and `z`. -/
theorem rightMatrix_sheared : (sheared 1).RightMatrix :=
  (rightMatrix_iff (sheared 1) fun _ => sheared_regular (by norm_num)).mpr fun _ => Or.inr rfl

/-- A material that is twice as stiff in `x`. -/
theorem not_rightMatrix_sheared :
    ¬∀ mat : LinearElasticProperties, (mat.model ≠ .ANISOTROPIC → mat.Regular) →
      mat.RightMatrix := by
  intro hall
  have hreg : (sheared 2).Regular := sheared_regular (by norm_num)
  have hharmless := harmless_of_normalBlock rfl hreg
    ((hall (sheared 2) fun _ => hreg).normal (by decide))
  norm_num [Harmless, sheared] at hharmless

end LinearElasticProperties

end Espreso.Material
