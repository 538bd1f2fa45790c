import ReversePolish.Text.Backspace
import ReversePolish.Proofs.Lines

/-!
# What backspaces leave

As long as no cluster has 256 bytes, each backspace takes away exactly the last cluster that is
still there (`erase?_of_small`), so every such line has a reading. A backspace is a cluster of its
own, and what stands behind the last one of a line stays (`erase?_append`).
-/

namespace ReversePolish.Text

/-- The clusters that backspaces leave, of some that are given from the last and some to come. -/
def survivors (kept : List (List Char)) : List (List Char) → List (List Char)
  | [] => kept.reverse
  | c :: cs => if c = [backspace] then survivors kept.tail cs else survivors (c :: kept) cs

theorem byteSize_append (s t : List Char) : byteSize (s ++ t) = byteSize s + byteSize t := by
  induction s with
  | nil => simp [byteSize]
  | cons c s ih => simp [byteSize, ih, Nat.add_assoc]

theorem byteSize_reverse (s : List Char) : byteSize s.reverse = byteSize s := by
  induction s with
  | nil => rfl
  | cons c s ih => simp [byteSize, byteSize_append, ih, Nat.add_comm]

theorem dropBytes_byteSize_append (s t : List Char) : dropBytes (byteSize s) (s ++ t) = some t := by
  induction s with
  | nil => simp [byteSize, dropBytes]
  | cons c s ih =>
    obtain ⟨n, hn⟩ := Nat.exists_eq_succ_of_ne_zero (Nat.ne_of_gt c.utf8Size_pos)
    have hsize : byteSize (c :: s) = (n + byteSize s) + 1 := by
      rw [byteSize, hn]
      omega
    have hrest : n + byteSize s + 1 - c.utf8Size = byteSize s := by omega
    rw [hsize, List.cons_append, dropBytes, if_pos (by omega), hrest, ih]

/-- The sizes of small clusters are kept as they are, so a backspace finds the last cluster. -/
theorem applyBackspaces_of_small {cs kept : List (List Char)} (hcs : ∀ c ∈ cs, byteSize c < 256)
    (hkept : ∀ c ∈ kept, byteSize c < 256) :
    applyBackspaces (kept.flatMap List.reverse) (kept.map fun c => (byteSize c).toUInt8) cs =
      some (survivors kept cs).flatten := by
  induction cs generalizing kept with
  | nil => rw [applyBackspaces, survivors, List.flatten_reverse, List.flatMap_def]
  | cons c cs ih =>
    obtain ⟨hc, hcs⟩ := List.forall_mem_cons.mp hcs
    rw [applyBackspaces, survivors]
    split
    · cases kept with
      | nil => exact ih hcs (List.forall_mem_nil _)
      | cons k kept =>
        obtain ⟨hk, hkept⟩ := List.forall_mem_cons.mp hkept
        have hsize : ((byteSize k).toUInt8).toNat = byteSize k.reverse := by
          rw [byteSize_reverse]
          exact UInt8.toNat_ofNat_of_lt' hk
        simp only [List.map_cons, List.headD_cons, List.flatMap_cons, hsize,
          dropBytes_byteSize_append]
        exact ih hcs hkept
    · have hall : ∀ k ∈ c :: kept, byteSize k < 256 := List.forall_mem_cons.mpr ⟨hc, hkept⟩
      exact ih hcs hall

theorem erase?_of_small {s : List Char} (h : ∀ c ∈ clusters s, byteSize c < 256) :
    erase? s = some (survivors [] (clusters s)).flatten :=
  applyBackspaces_of_small h (List.forall_mem_nil _)

/-- An A under 128 graves has 257 bytes, of which eight bits keep one, and its last character has
two. -/
def overlong : List Char := 'A' :: List.replicate 128 '\u0300'

theorem erase?_overlong : erase? (overlong ++ [backspace]) = none := by decide +kernel

theorem scanCluster_next_control (x : Context) (s : List Char) :
    scanCluster (x.next .control) s = scanCluster .start s := by
  cases s with
  | nil => rfl
  | cons c s =>
    have hjoins : (x.next .control).joins (.ofChar c) = false := rfl
    have hnext : (x.next .control).next (.ofChar c) = Context.start.next (.ofChar c) := rfl
    rw [scanCluster, scanCluster, hjoins, hnext]
    rfl

/-- A backspace is a cluster of its own, and starts the clusters behind it anew. -/
theorem scanCluster_append_backspace (x : Context) (s t : List Char) :
    scanCluster x (s ++ backspace :: t) =
      ((scanCluster x s).1, (scanCluster x s).2 ++ [backspace] :: clusters t) := by
  induction s generalizing x with
  | nil =>
    have hkind : Kind.ofChar backspace = .control := by decide
    have hjoins : x.joins .control = false := by
      cases h : x.last <;> simp [Context.joins, h, Kind.isControl]
    simp only [List.nil_append, scanCluster, hkind, hjoins, scanCluster_next_control,
      scanCluster_start]
    rfl
  | cons c s ih =>
    rw [List.cons_append, scanCluster, ih, scanCluster]
    split <;> rfl

theorem clusters_append_backspace (s t : List Char) :
    clusters (s ++ backspace :: t) = clusters s ++ [backspace] :: clusters t := by
  rw [clusters, scanCluster_append_backspace]
  rfl

/-- What some clusters leave is all that matters to the clusters behind them. -/
theorem exists_applyBackspaces_append {cs : List (List Char)} (h : backspace ∉ cs.flatten)
    (kept : List Char) (sizes : List UInt8) :
    ∃ kept' sizes', ∀ ds,
      applyBackspaces kept sizes (cs ++ ds) = applyBackspaces kept' sizes' ds := by
  induction cs generalizing kept sizes with
  | nil => exact ⟨kept, sizes, fun _ => rfl⟩
  | cons c cs ih =>
    rw [List.flatten_cons, List.mem_append, not_or] at h
    have hc : c ≠ [backspace] := fun he => h.1 (he ▸ List.mem_singleton_self _)
    obtain ⟨kept', sizes', happly⟩ :=
      ih h.2 (c.reverse ++ kept) ((byteSize c).toUInt8 :: sizes)
    refine ⟨kept', sizes', fun ds => ?_⟩
    rw [List.cons_append, applyBackspaces, if_neg hc, happly]

theorem applyBackspaces_clusters_append {t : List Char} (h : backspace ∉ t) (s kept : List Char)
    (sizes : List UInt8) :
    applyBackspaces kept sizes (clusters (s ++ t)) =
      (applyBackspaces kept sizes (clusters s)).map (· ++ t) := by
  have hplain : ∀ {u : List Char}, backspace ∉ u → ∀ kept sizes,
      applyBackspaces kept sizes (clusters u) = some (kept.reverse ++ u) := by
    intro u hu kept sizes
    rw [applyBackspaces_of_not_mem (by rwa [flatten_clusters]), flatten_clusters]
  have hends : ∀ {a : List Char}, (∀ c ∈ a, (c == backspace) = false) → backspace ∉ a :=
    fun ha hmem => absurd (ha _ hmem) (by decide)
  induction s using lines_induction (· == backspace) generalizing kept sizes with
  | nil => exact hplain h kept sizes
  | rest a ha _ =>
    rw [hplain (List.not_mem_append (hends ha) h), hplain (hends ha), Option.map_some,
      List.append_assoc]
  | line a x b ha hx ih =>
    rw [eq_of_beq hx, List.append_assoc, List.cons_append, clusters_append_backspace,
      clusters_append_backspace]
    have hno : backspace ∉ (clusters a).flatten := by
      rw [flatten_clusters]
      exact hends ha
    obtain ⟨kept', sizes', happly⟩ := exists_applyBackspaces_append hno kept sizes
    rw [happly, happly, applyBackspaces, applyBackspaces, if_pos rfl, if_pos rfl]
    cases dropBytes (sizes'.headD 0).toNat kept' with
    | none => rfl
    | some kept => exact ih kept sizes'.tail

theorem erase?_append {t : List Char} (h : backspace ∉ t) (s : List Char) :
    erase? (s ++ t) = (erase? s).map (· ++ t) :=
  applyBackspaces_clusters_append h s [] []

end ReversePolish.Text
