import MonkeyCache.FileTable

/-!
# The mapping of a file

`cache_file_new` and `cache_file_tmp` map as many whole pages as a file needs.
They keep their length in an `int`, where a length of `2 ^ 31` or more is lost.
So the mapping covers the file if and only if the file is not longer than the
pages below `2 ^ 31` (`mapping_covers`).
-/

namespace MonkeyCache

/-- `int mmap_len = ceil((double) size / MMAP_SIZE) * MMAP_SIZE`, with doubles
taken as exact; `MMAP_SIZE` is the parameter `page`. -/
def mmapLen (size page : Nat) : Int := toInt (⌈(size : ℚ) / page⌉ * page)

/-- The bytes of the whole pages that `int` can count. -/
def mmapMost (page : Nat) : Nat := (2 ^ 31 - 1) / page * page

variable {n page : Nat}

/-- **Whole pages** reach past the end of a file, by less than a page. -/
theorem pages_cover (hpage : 0 < page) :
    (n : Int) ≤ ⌈(n : ℚ) / page⌉ * page ∧ ⌈(n : ℚ) / page⌉ * page < (n : Int) + page := by
  have hpos : (0 : ℚ) < page := by exact_mod_cast hpage
  have hle : (n : ℚ) ≤ ⌈(n : ℚ) / page⌉ * page := (div_le_iff₀ hpos).1 (Int.le_ceil _)
  have hlt : (⌈(n : ℚ) / page⌉ : ℚ) * page < n + page := by
    have hceil := mul_lt_mul_of_pos_right (Int.ceil_lt_add_one ((n : ℚ) / page)) hpos
    rwa [add_mul, one_mul, div_mul_cancel₀ _ hpos.ne'] at hceil
  exact ⟨by exact_mod_cast hle, by exact_mod_cast hlt⟩

/-- **Whole pages fit** into an `int` up to the last one that does. -/
theorem pages_fit_iff (hpage : 0 < page) :
    ⌈(n : ℚ) / page⌉ * (page : Int) < 2 ^ 31 ↔ n ≤ mmapMost page := by
  have hpos : (0 : ℚ) < page := by exact_mod_cast hpage
  have hpage' : (0 : Int) < page := by exact_mod_cast hpage
  have hmost : ((mmapMost page : Nat) : Int) = (2 ^ 31 - 1) / (page : Int) * page := by
    unfold mmapMost
    norm_cast
  constructor
  · intro hfits
    have hpages : ⌈(n : ℚ) / page⌉ ≤ (2 ^ 31 - 1) / (page : Int) := by
      rw [Int.le_ediv_iff_mul_le hpage']
      omega
    have hle := mul_le_mul_of_nonneg_right hpages hpage'.le
    have hcover := (pages_cover (n := n) hpage).1
    rw [← hmost] at hle
    exact_mod_cast hcover.trans hle
  · intro hle
    have hpages : ⌈(n : ℚ) / page⌉ ≤ (2 ^ 31 - 1) / (page : Int) := by
      rw [Int.ceil_le, div_le_iff₀ hpos]
      have hle' : (n : Int) ≤ (2 ^ 31 - 1) / (page : Int) * page := by
        rw [← hmost]
        exact_mod_cast hle
      exact_mod_cast hle'
    have hbelow := (Int.le_ediv_iff_mul_le hpage').1 hpages
    omega

/-- A length that `int` cannot count is lost. -/
theorem mmapLen_lost (hpage : 0 < page) (h : mmapMost page < n) : mmapLen n page = -2 ^ 31 := by
  have hlarge : ¬ ⌈(n : ℚ) / page⌉ * (page : Int) < 2 ^ 31 := by
    rw [pages_fit_iff hpage]
    omega
  exact if_neg fun hfits => hlarge hfits.2

/-- **The mapping.**  It covers the file with less than a page to spare, and with
it everything that is read of the file, if and only if the file is not longer than
the pages that `int` can count. -/
theorem mapping_covers (hpage : 0 < page) (hn : 0 < n) :
    ((n : Int) ≤ mmapLen n page ∧ mmapLen n page < n + page ∧
      ∀ f : CacheFile, f.size = n → ∀ start len mem, f.read start len = .ok mem →
        0 ≤ start ∧ start + len ≤ mmapLen n page) ↔
      n ≤ mmapMost page := by
  obtain ⟨hle, hlt⟩ := pages_cover (n := n) hpage
  constructor
  · intro h
    by_contra hlarge
    have hlost := mmapLen_lost hpage (Nat.lt_of_not_le hlarge)
    omega
  · intro hmost
    have hfits := (pages_fit_iff hpage).2 hmost
    have hkept : mmapLen n page = ⌈(n : ℚ) / page⌉ * page := if_pos ⟨by omega, hfits⟩
    rw [hkept]
    refine ⟨hle, hlt, ?_⟩
    intro f hsize start len mem hread
    unfold CacheFile.read at hread
    split at hread
    · cases hread
    · omega

/-- A file of two pages and a byte. -/
theorem mapping_covers_sample : (8193 : Int) ≤ mmapLen 8193 4096 ∧ mmapLen 8193 4096 < 12289 :=
  have h := (mapping_covers (by decide) (by decide)).2 (by decide)
  ⟨h.1, h.2.1⟩

/-- A file of `2 ^ 31` bytes has no mapping. -/
theorem mapping_lost : mmapLen (2 ^ 31) 4096 = -2 ^ 31 ∧ ¬ ((2 ^ 31 : Nat) : Int) ≤
    mmapLen (2 ^ 31) 4096 := by
  have hlost : mmapLen (2 ^ 31) 4096 = -2 ^ 31 := mmapLen_lost (by decide) (by decide)
  refine ⟨hlost, ?_⟩
  rw [hlost]
  decide

end MonkeyCache
