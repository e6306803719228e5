import Mathlib.Data.List.Induction

namespace Osisp.Lib

section LastWriter

variable {σ ι κ ν : Type*} (touches : ι → κ → Bool) (leaves : ι → κ → ν)

/-- The last of the steps `js` that touches the key. -/
def lastWriter (js : List ι) (k : κ) : Option ι := js.reverse.find? (touches · k)

/-- What the steps leave under a key that had `v` before. -/
def leftBy (js : List ι) (k : κ) (v : ν) : ν :=
  (lastWriter touches js k).elim v (leaves · k)

@[simp] theorem leftBy_nil (k : κ) (v : ν) : leftBy touches leaves [] k v = v := rfl

theorem leftBy_append_cons {j : ι} {k : κ} (h : touches j k = true) (pre post : List ι) (v : ν) :
    leftBy touches leaves (pre ++ j :: post) k v = leftBy touches leaves post k (leaves j k) := by
  have hrev : (pre ++ j :: post).reverse = post.reverse ++ (j :: pre.reverse) := by
    rw [List.reverse_append, List.reverse_cons, List.append_assoc, List.singleton_append]
  rw [leftBy, leftBy, lastWriter, lastWriter, hrev, List.find?_append,
    List.find?_cons_of_pos (p := (touches · k)) h]
  cases List.find? (touches · k) post.reverse with
  | none => rfl
  | some i => rfl

variable {touches leaves}

/-- When every step leaves what it should under the keys it touches, and the other keys alone, a
key ends with what the last step that touches it leaves. -/
theorem lookup_foldl (get : σ → κ → ν) {step : σ → ι → σ} (js : List ι)
    (hstep : ∀ j ∈ js, ∀ s k, get (step s j) k = if touches j k then leaves j k else get s k)
    (s : σ) (k : κ) : get (js.foldl step s) k = leftBy touches leaves js k (get s k) := by
  induction js using List.reverseRecOn with
  | nil => rfl
  | append_singleton js j ih =>
    rw [List.foldl_append, List.foldl_cons, List.foldl_nil, hstep j (by simp)]
    by_cases h : touches j k = true
    · rw [if_pos h, leftBy_append_cons touches leaves h, leftBy_nil]
    · rw [if_neg h, ih fun i hi => hstep i (List.mem_append_left _ hi), leftBy, leftBy, lastWriter,
        lastWriter, List.reverse_append, List.reverse_singleton, List.singleton_append,
        List.find?_cons_of_neg (p := (touches · k)) h]

end LastWriter

end Osisp.Lib
