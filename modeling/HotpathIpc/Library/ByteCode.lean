import Mathlib.Data.Nat.ModEq
import Mathlib.InformationTheory.Coding.UniquelyDecodable

/-!
# Byte codes

* `leBytes` — the low bytes of a number, least significant first; **`leBytes_eq_iff`** — they
  determine it modulo a power of 256, and no more.
* `Headed` — the words of a code each begin with a symbol that says how many follow.
  **`Headed.uniquelyDecodable`** — a sequence of such words is determined by their concatenation.
-/

namespace ByteCode

open InformationTheory

/-! ## Numbers -/

/-- The `k` low bytes of a number, least significant first. -/
def leBytes : ℕ → ℕ → List UInt8
  | 0, _ => []
  | k + 1, n => UInt8.ofNat n :: leBytes k (n / 256)

@[simp] theorem length_leBytes : ∀ k n : ℕ, (leBytes k n).length = k
  | 0, _ => rfl
  | k + 1, n => by rw [leBytes, List.length_cons, length_leBytes k]

theorem ofNat_eq_iff (n m : ℕ) : UInt8.ofNat n = UInt8.ofNat m ↔ n % 256 = m % 256 := by
  rw [← UInt8.toNat_inj, UInt8.toNat_ofNat', UInt8.toNat_ofNat']

/-- **Bytes of numbers** agree exactly when the numbers do, as far as the bytes go. -/
theorem leBytes_eq_iff : ∀ {k n m : ℕ}, leBytes k n = leBytes k m ↔ n ≡ m [MOD 256 ^ k]
  | 0, n, m => by simp [leBytes, Nat.modEq_one]
  | k + 1, n, m => by
      have ih := leBytes_eq_iff (k := k) (n := n / 256) (m := m / 256)
      rw [leBytes, leBytes, List.cons.injEq, ofNat_eq_iff, ih, Nat.ModEq, Nat.ModEq, pow_succ',
        Nat.mod_mul, Nat.mod_mul]
      have hn := Nat.mod_lt n (show 256 > 0 by omega)
      have hm := Nat.mod_lt m (show 256 > 0 by omega)
      omega

/-! ## Words -/

section Words

variable {β : Type*}

/-- Every word is a symbol and as many more as that symbol says. -/
def Headed (len : β → ℕ) (code : Set (List β)) : Prop :=
  ∀ w ∈ code, ∃ c s, w = c :: s ∧ s.length = len c

/-- **Unique decodability**: the first symbol cuts the first word off. -/
theorem Headed.uniquelyDecodable {len : β → ℕ} {code : Set (List β)} (h : Headed len code) :
    UniquelyDecodable code := by
  intro ws ws' hws hws' heq
  induction ws generalizing ws' with
  | nil =>
      cases ws' with
      | nil => rfl
      | cons w' ws' =>
          obtain ⟨c, s, rfl, -⟩ := h w' (hws' w' List.mem_cons_self)
          cases heq
  | cons w ws ih =>
      obtain ⟨c, s, rfl, hs⟩ := h w (hws w List.mem_cons_self)
      cases ws' with
      | nil => cases heq
      | cons w' ws' =>
          obtain ⟨c', s', rfl, hs'⟩ := h w' (hws' w' List.mem_cons_self)
          simp only [List.flatten_cons, List.cons_append, List.cons.injEq] at heq
          obtain ⟨rfl, htail⟩ := heq
          obtain ⟨rfl, hrest⟩ := List.append_inj htail (hs.trans hs'.symm)
          rw [ih ws' (fun v hv => hws v (List.mem_cons_of_mem _ hv))
            (fun v hv => hws' v (List.mem_cons_of_mem _ hv)) hrest]

/-- Sequences that are written in such a code, word by word. -/
theorem flatMap_eq_iff {α : Type*} {encode : α → List β}
    (h : UniquelyDecodable (Set.range encode)) {xs ys : List α} :
    xs.flatMap encode = ys.flatMap encode ↔ xs.map encode = ys.map encode := by
  rw [List.flatMap_def, List.flatMap_def]
  refine ⟨fun heq => h _ _ ?_ ?_ heq, fun heq => by rw [heq]⟩
  · intro w hw
    obtain ⟨x, -, rfl⟩ := List.mem_map.mp hw
    exact Set.mem_range_self x
  · intro w hw
    obtain ⟨y, -, rfl⟩ := List.mem_map.mp hw
    exact Set.mem_range_self y

end Words

end ByteCode
