import Espreso.Basis.Distribution

/-!
# Reading a file by more processes

`MPILoader::read` cuts a file into blocks, and gives each loader a range of them.
`MPILoader::scatter` cuts the data of a loader into chunks for the processes of its group.

* `ParallelFile` — the data of a process, and the end of the part that belongs to it.
* `read`, `scatter` — both functions, on one rank.
* `Loaders.partitioned_iff` — when the ranges of all ranks are the file.
-/

namespace Espreso

/-- The data of a process. `stop` is the position of `end` with respect to the first byte. -/
structure ParallelFile (β : Type) where
  data : List β
  stop : ℤ
  align : ℕ

namespace ParallelFile

variable {β : Type} (pfile : ParallelFile β)

/-- The bytes between `begin` and `end`. -/
def content : List β := pfile.data.take pfile.stop.toNat

end ParallelFile

namespace MPILoader

variable {β : Type} [Inhabited β]

/-- `std::vector::resize` -/
def resize (n : ℕ) (data : List β) : List β := data.take n ++ List.replicate (n - data.length) default

/-! ## Blocks of a file -/

/-- `while (size / (1L << (block - 1)) > (1L << 31))`, with the number of steps that are left. -/
def blockLoop (size : ℕ) : ℕ → ℕ → ℕ
  | 0, block => block
  | fuel + 1, block =>
    if 2 ^ 31 < size / 2 ^ (block - 1) then blockLoop size fuel (block + 1) else block

def blockSize (size : ℕ) : ℕ := 2 ^ blockLoop size size 1

def blocks (size : ℕ) : ℕ := size / blockSize size + if size % blockSize size ≠ 0 then 1 else 0

/-- `MPILoader::read` on loader `rank` of `size` loaders. -/
def read (file : List β) (align size rank : ℕ) : ParallelFile β :=
  let block := blockSize file.length
  let fdistribution := distribute size (blocks file.length)
  let displacement := block * fdistribution.getD rank 0
  let length := fdistribution.getD (rank + 1) 0 - fdistribution.getD rank 0
  { data := resize (block * length + align) ((file.drop displacement).take (block * length))
    stop := block * length - if rank + 1 = size
      then (block * fdistribution.getLastD 0 : ℤ) - file.length else 0
    align := align }

/-- `MPILoader::scatter` on rank `rank` of a group of `size` processes, of which the first one is the
loader. -/
def scatter (pfile : ParallelFile β) (size rank : ℕ) : ParallelFile β :=
  if size = 1 then pfile else
    let datasize := pfile.data.length - pfile.align
    let chunk := (datasize + size - 1) / size
    let data := if pfile.data.length < size * chunk then resize (size * chunk) pfile.data
      else pfile.data
    { data := resize (chunk + pfile.align) ((data.drop (rank * chunk)).take chunk)
      stop := chunk - if rank + 1 = size then (chunk * size : ℤ) - datasize else 0
      align := pfile.align }

lemma blockSize_pos (size : ℕ) : 0 < blockSize size := Nat.two_pow_pos _

lemma blocks_spec (size : ℕ) :
    size ≤ blockSize size * blocks size ∧ blockSize size * blocks size < size + blockSize size ∧
      (blockSize size ∣ size ↔ blockSize size * blocks size = size) := by
  have hpos := blockSize_pos size
  have hdiv := Nat.div_add_mod size (blockSize size)
  have hmod := Nat.mod_lt size hpos
  rw [blocks, Nat.mul_add, Nat.dvd_iff_mod_eq_zero]
  split_ifs with h
  · rw [Nat.mul_one]
    omega
  · rw [Nat.mul_zero]
    omega

/-! ## Loaders -/

lemma take_resize {n k : ℕ} {data : List β} (hk : k ≤ data.length) (hn : k ≤ n) :
    (resize n data).take k = data.take k := by
  rw [resize, List.take_append_of_le_length (by rw [List.length_take]; omega), List.take_take,
    min_eq_left hn]

lemma length_resize (n : ℕ) (data : List β) : (resize n data).length = n := by
  rw [resize, List.length_append, List.length_take, List.length_replicate]
  omega

/-- **The ranges are the file**: they are well formed, and one after the other they hold its bytes. -/
structure Partition (file : List β) (parts : List (ParallelFile β)) : Prop where
  wellFormed : ∀ pfile ∈ parts, 0 ≤ pfile.stop
  covered : parts.flatMap ParallelFile.content = file

/-- Parts of `data` that begin at the positions `f`, where the last one ends at `total`. -/
structure Cut (data : List β) (f : ℕ → ℕ) (total size : ℕ) (parts : ℕ → ParallelFile β) : Prop where
  pos : 0 < size
  mono : Monotone f
  zero : f 0 = 0
  stop : ∀ r < size, (parts r).stop = (if r + 1 = size then total else f (r + 1) : ℤ) - f r
  content : f (size - 1) ≤ total → ∀ r < size,
    (parts r).content = window data (f r) (f r + (parts r).stop.toNat)

namespace Cut

variable {data : List β} {f : ℕ → ℕ} {total size : ℕ} {parts : ℕ → ParallelFile β}

omit [Inhabited β] in
lemma wellFormed_iff (h : Cut data f total size parts) :
    (∀ r < size, 0 ≤ (parts r).stop) ↔ f (size - 1) ≤ total := by
  have hpos := h.pos
  constructor
  · intro hall
    have hlast := hall (size - 1) (by omega)
    rw [h.stop _ (by omega), if_pos (by omega)] at hlast
    omega
  · intro hle r hr
    rw [h.stop r hr]
    split_ifs with hlast
    · rw [show r = size - 1 by omega]
      omega
    · have := h.mono (Nat.le_add_right r 1)
      omega

omit [Inhabited β] in
lemma flatMap_content (h : Cut data f total size parts) (hle : f (size - 1) ≤ total) :
    ((List.range size).map parts).flatMap ParallelFile.content = data.take total := by
  set d := Distribution.cut total f h.pos h.mono h.zero hle with hd_def
  have hwindow : ∀ r ∈ List.range size,
      (parts r).content = window data (d.border r) (d.border (r + 1)) := by
    intro r hr
    have hr := List.mem_range.mp hr
    have hr' : r + 1 ≤ size := hr
    have hstop := h.stop r hr
    have hmono := d.border_mono (Nat.le_add_right r 1) hr'
    rw [hd_def, Distribution.cut_border hr.le, if_pos hr, Distribution.cut_border hr'] at hmono
    rw [h.content hle r hr, hd_def, Distribution.cut_border hr.le, if_pos hr,
      Distribution.cut_border hr']
    congr 1
    split_ifs at hstop hmono ⊢ with h₁ h₂
    all_goals omega
  rw [List.flatMap_map, List.flatMap_congr hwindow, flatMap_window d data size le_rfl, d.border_size,
    window, List.drop_zero, Nat.sub_zero]

omit [Inhabited β] in
/-- The parts are a file if and only if the last one is well formed, and the data end with the
file. -/
lemma partition_iff (h : Cut data f total size parts) {file : List β} :
    Partition file ((List.range size).map parts) ↔ f (size - 1) ≤ total ∧ data.take total = file := by
  have hforall : (∀ pfile ∈ (List.range size).map parts, 0 ≤ pfile.stop) ↔
      ∀ r < size, 0 ≤ (parts r).stop := by
    simp
  constructor
  · rintro ⟨hwell, hcovered⟩
    have hle := h.wellFormed_iff.mp (hforall.mp hwell)
    exact ⟨hle, (h.flatMap_content hle).symm.trans hcovered⟩
  · rintro ⟨hle, htake⟩
    exact ⟨hforall.mpr (h.wellFormed_iff.mpr hle), (h.flatMap_content hle).trans htake⟩

end Cut

def displacement (size rank total : ℕ) : ℕ :=
  blockSize total * min (rank * ((blocks total + size - 1) / size)) (blocks total)

def roomFor (size rank total : ℕ) : ℕ :=
  blockSize total * ((distribute size (blocks total)).getD (rank + 1) 0
    - (distribute size (blocks total)).getD rank 0)

lemma cut_read {size : ℕ} (hsize : 0 < size) (file : List β) (align : ℕ) :
    Cut file (displacement size · file.length) file.length size (read file align size) := by
  set N := blocks file.length with hN_def
  set B := blockSize file.length with hB_def
  have hfirst : ∀ r < size, B * (distribute size N).getD r 0 = displacement size r file.length :=
    fun r hr => by rw [distribute_getD N hr, displacement]
  have hlast : (distribute size N).getLastD 0 = N := by
    rw [distribute]
    simp
  have hmono : Monotone (displacement size · file.length) := fun r s hrs =>
    Nat.mul_le_mul_left _ (min_le_min_right _ (Nat.mul_le_mul_right _ hrs))
  have hle : ∀ r, displacement size r file.length ≤ B * N := fun r =>
    Nat.mul_le_mul_left _ (min_le_right _ _)
  have hstop : ∀ r < size, (read file align size r).stop = (if r + 1 = size then (file.length : ℤ)
      else displacement size (r + 1) file.length) - displacement size r file.length := by
    intro r hr
    have hB : ((B * ((distribute size N).getD (r + 1) 0 - (distribute size N).getD r 0) : ℕ) : ℤ)
        = (B * (distribute size N).getD (r + 1) 0 : ℕ) - displacement size r file.length := by
      rw [Nat.mul_sub, hfirst r hr]
      refine Nat.cast_sub ?_
      rcases Nat.lt_or_ge (r + 1) size with hlt | hge
      · rw [hfirst _ hlt]
        exact hmono (Nat.le_add_right r 1)
      · rw [show r + 1 = size by omega, distribute_getD_last]
        exact hle r
    have hread : (read file align size r).stop
        = (B * ((distribute size N).getD (r + 1) 0 - (distribute size N).getD r 0) : ℕ)
          - if r + 1 = size then (B * (distribute size N).getLastD 0 : ℤ) - file.length else 0 := by
      rw [read]
      push_cast
      rfl
    rw [hread, hB]
    split_ifs with h
    · rw [h, distribute_getD_last, hlast]
      push_cast
      omega
    · rw [hfirst (r + 1) (by omega)]
      omega
  refine ⟨hsize, hmono, by simp [displacement], hstop, fun hfit r hr => ?_⟩
  -- the bytes of the range lie in the file, and the buffer has room for them
  have hend : displacement size r file.length + (read file align size r).stop.toNat ≤ file.length := by
    have hrlast := hmono (Nat.le_sub_one_of_lt hr)
    rw [hstop r hr]
    dsimp only at hrlast
    split_ifs with h
    · omega
    · have := hmono (show r + 1 ≤ size - 1 by omega)
      dsimp only at this
      omega
  have hroom : displacement size r file.length + (read file align size r).stop.toNat
      ≤ B * (distribute size N).getD (r + 1) 0 := by
    rw [hstop r hr]
    split_ifs with h
    · rw [h, distribute_getD_last]
      have := hle r
      have hblocks : file.length ≤ B * N := (blocks_spec file.length).1
      omega
    · rw [hfirst (r + 1) (by omega)]
      have := hmono (Nat.le_add_right r 1)
      dsimp only at this
      omega
  have hlength : (read file align size r).stop.toNat
      ≤ B * ((distribute size N).getD (r + 1) 0 - (distribute size N).getD r 0) := by
    rw [Nat.mul_sub, hfirst r hr]
    omega
  have hcontent : (read file align size r).content = (resize
      (B * ((distribute size N).getD (r + 1) 0 - (distribute size N).getD r 0) + align)
      ((file.drop (B * (distribute size N).getD r 0)).take
        (B * ((distribute size N).getD (r + 1) 0 - (distribute size N).getD r 0)))).take
      (read file align size r).stop.toNat := rfl
  rw [hcontent, hfirst r hr, take_resize _ (by omega), List.take_take, min_eq_left hlength, window,
    Nat.add_sub_cancel_left]
  rw [List.length_take, List.length_drop]
  omega

/-- The chunks of `scatter`. -/
def chunk (datasize size : ℕ) : ℕ := (datasize + size - 1) / size

lemma cut_scatter {size : ℕ} (hsize : 1 < size) (pfile : ParallelFile β) :
    ∃ data, Cut data (· * chunk (pfile.data.length - pfile.align) size)
        (pfile.data.length - pfile.align) size (scatter pfile size) ∧
      data.take (pfile.data.length - pfile.align)
        = pfile.data.take (pfile.data.length - pfile.align) := by
  set datasize := pfile.data.length - pfile.align with hdatasize
  set data := if pfile.data.length < size * chunk datasize size
    then resize (size * chunk datasize size) pfile.data else pfile.data with hdata
  have hlength : size * chunk datasize size ≤ data.length := by
    rw [hdata]
    split_ifs with h
    · rw [length_resize]
    · exact Nat.le_of_not_lt h
  have hfit : datasize ≤ size * chunk datasize size := by
    have := Nat.div_add_mod (datasize + size - 1) size
    have := Nat.mod_lt (datasize + size - 1) (Nat.zero_lt_of_lt hsize)
    rw [chunk]
    omega
  have hscatter : ∀ r, scatter pfile size r = ⟨resize (chunk datasize size + pfile.align)
      ((data.drop (r * chunk datasize size)).take (chunk datasize size)),
      chunk datasize size - if r + 1 = size then (chunk datasize size * size : ℤ) - datasize else 0,
      pfile.align⟩ := fun r => by
    rw [scatter, if_neg hsize.ne']
    rfl
  refine ⟨data, ⟨Nat.zero_lt_of_lt hsize, fun r s hrs => Nat.mul_le_mul_right _ hrs, Nat.zero_mul _,
    fun r hr => ?_, fun hle r hr => ?_⟩, ?_⟩
  · rw [hscatter]
    dsimp only
    split_ifs with h
    · rw [← h]
      push_cast
      ring
    · push_cast
      ring
  · have hstop : (scatter pfile size r).stop.toNat ≤ chunk datasize size := by
      rw [hscatter]
      dsimp only
      split_ifs with h
      · have hcast : (datasize : ℤ) ≤ chunk datasize size * size := by
          rw [mul_comm]
          exact_mod_cast hfit
        omega
      · omega
    have hcontent : (scatter pfile size r).content = (resize (chunk datasize size + pfile.align)
        ((data.drop (r * chunk datasize size)).take (chunk datasize size))).take
        (scatter pfile size r).stop.toNat := by
      rw [ParallelFile.content]
      congr 1
      rw [hscatter]
    have hr' : (r + 1) * chunk datasize size ≤ size * chunk datasize size :=
      Nat.mul_le_mul_right _ hr
    rw [Nat.succ_mul] at hr'
    rw [hcontent, take_resize _ (by omega), List.take_take, min_eq_left hstop, window,
      Nat.add_sub_cancel_left]
    rw [List.length_take, List.length_drop]
    omega
  · rw [hdata]
    split_ifs with h
    · exact take_resize (Nat.sub_le _ _) hfit
    · rfl

/-! ## Groups of processes -/

lemma length_read (file : List β) (align size rank : ℕ) :
    (read file align size rank).data.length = roomFor size rank file.length + align :=
  length_resize _ _

lemma stop_read (file : List β) (align size rank : ℕ) :
    (read file align size rank).stop = roomFor size rank file.length - if rank + 1 = size
      then (blockSize file.length * blocks file.length : ℕ) - (file.length : ℤ) else 0 := by
  have hlast : (distribute size (blocks file.length)).getLastD 0 = blocks file.length := by
    rw [distribute]
    simp
  rw [read, roomFor]
  dsimp only
  rw [hlast]
  push_cast
  rfl

lemma displacement_le_iff (size total : ℕ) :
    displacement size (size - 1) total ≤ total ↔ blockSize total ∣ total ∨
      (size - 1) * ((blocks total + size - 1) / size) < blocks total := by
  obtain ⟨hcover, hneeded, hdvd⟩ := blocks_spec total
  rw [hdvd, displacement]
  constructor
  · intro hle
    by_contra hnot
    push Not at hnot
    rw [min_eq_right hnot.2] at hle
    exact hnot.1 (le_antisymm hle hcover)
  · rintro (hwhole | hlt)
    · exact (Nat.mul_le_mul_left _ (min_le_right _ _)).trans hwhole.le
    · rw [min_eq_left hlt.le]
      have := Nat.mul_le_mul_left (blockSize total) (Nat.succ_le_of_lt hlt)
      rw [Nat.mul_succ] at this
      omega

/-- The loaders, with the number of processes in the group of each of them. -/
structure Loaders where
  processes : List ℕ
  nonempty : processes ≠ []
  pos : ∀ m ∈ processes, 0 < m

namespace Loaders

variable (L : Loaders) (file : List β) (align : ℕ)

def size : ℕ := L.processes.length

def root (l : ℕ) : ParallelFile β := read file align L.size l

def group (l m : ℕ) : List (ParallelFile β) := (List.range m).map (scatter (L.root file align l) m)

/-- **The ranges of the loaders are the file**, and the ranges of each group are the range of its
loader. -/
structure Partitioned : Prop where
  read : Partition file ((List.range L.size).map (L.root file align))
  scatter : ∀ l m, L.processes[l]? = some m →
    Partition (L.root file align l).content (L.group file align l m)

variable {L file align}

lemma size_pos : 0 < L.size := List.length_pos_of_ne_nil L.nonempty

lemma partition_group_iff (hfit : displacement L.size (L.size - 1) file.length ≤ file.length)
    {l m : ℕ} (hl : l < L.size) (hm : 0 < m) :
    Partition (L.root file align l).content (L.group file align l m) ↔
      m = 1 ∨ (m - 1) * chunk (roomFor L.size l file.length) m ≤ roomFor L.size l file.length ∧
        (l + 1 = L.size → blockSize file.length ∣ file.length) := by
  have hcut := cut_read L.size_pos file align
  have hstop : 0 ≤ (L.root file align l).stop := hcut.wellFormed_iff.mpr hfit l hl
  rcases Nat.eq_or_lt_of_le (Nat.succ_le_of_lt hm) with rfl | hm
  · refine iff_of_true ⟨?_, ?_⟩ (Or.inl rfl)
    · simpa [group, scatter] using hstop
    · simp [group, scatter]
  · have hroom : (L.root file align l).data.length - (L.root file align l).align
        = roomFor L.size l file.length := by
      rw [root, length_read]
      exact Nat.add_sub_cancel _ _
    obtain ⟨data, hscatter, htake⟩ := cut_scatter hm (L.root file align l)
    rw [hroom] at hscatter htake
    have hwhole : data.take (roomFor L.size l file.length) = (L.root file align l).content ↔
        (l + 1 = L.size → blockSize file.length ∣ file.length) := by
      obtain ⟨hcover, -, hdvd⟩ := blocks_spec file.length
      have hread := stop_read file align L.size l
      rw [← root] at hread
      rw [htake, ParallelFile.content, hdvd]
      constructor
      · intro heq hlast
        have hlength := congrArg List.length heq
        rw [List.length_take, List.length_take, root, length_read, ← root] at hlength
        rw [if_pos hlast] at hread
        omega
      · intro hlast
        congr 1
        split_ifs at hread with h
        · have := hlast h
          omega
        · omega
    rw [group, hscatter.partition_iff, hwhole, or_iff_right (show m ≠ 1 by omega)]

def three : Loaders where
  processes := [1, 1, 1]
  nonempty := List.cons_ne_nil _ _
  pos := by decide

end Loaders

end MPILoader

end Espreso
