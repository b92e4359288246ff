import MiniOs32.Tools.Mkesp

/-!
# Entries read back

The 32 bytes of `dirent` as a reader of the format takes them, and a block of them.
-/

namespace MiniOs32

/-! ## Names -/

/-- A character of a short name, in upper case. -/
theorem upper_shortChar : ∀ c : Byte, isShortChar c = true → upper c ≠ 0x20#8 ∧ upper c ≠ 0#8 ∧ upper c ≠ 0xE5#8 ∧ upper c ≠ 0x2E#8 ∧ c ≠ 0x2E#8 := by
  decide +kernel

/-- A name without spaces, trimmed. -/
theorem trimmed_replicate {s : List Byte} (h : ∀ c ∈ s, c ≠ 0x20#8) (k : Nat) : FatVolume.trimmed (s ++ List.replicate k 0x20#8) = s := by
  rw [FatVolume.trimmed, List.reverse_append, List.reverse_replicate, List.dropWhile_append_of_pos]
  · rw [List.dropWhile_eq_self_iff.mpr, List.reverse_reverse]
    intro hpos
    have hmem := List.getElem_mem hpos
    rw [List.mem_reverse] at hmem
    simpa using h _ hmem
  · intro c hc
    exact decide_eq_true (List.eq_of_mem_replicate hc)

theorem paddedName_eq {n : Nat} {s : List Byte} (h : s.length ≤ n) : paddedName n s = s.map upper ++ List.replicate (n - s.length) 0x20#8 := by
  refine List.take_of_length_le ?_
  rw [List.length_append, List.length_map, List.length_replicate]
  omega

theorem length_paddedName {n : Nat} {s : List Byte} (h : s.length ≤ n) : (paddedName n s).length = n := by
  rw [paddedName_eq h, List.length_append, List.length_map, List.length_replicate]
  omega

theorem trimmed_paddedName {n : Nat} {s : List Byte} (h : s.length ≤ n) (hs : ∀ c ∈ s, isShortChar c = true) :
    FatVolume.trimmed (paddedName n s) = s.map upper := by
  rw [paddedName_eq h]
  refine trimmed_replicate (fun c hc => ?_) _
  obtain ⟨d, hd, rfl⟩ := List.mem_map.mp hc
  exact (upper_shortChar d (hs d hd)).1

/-- `split83` takes a short name apart. -/
theorem split83_short {x base ext : List Byte} (hb : base.length ≤ 8) (he : ext.length ≤ 3) (hs : ∀ c ∈ base ++ ext, isShortChar c = true)
    (hx : x = if ext = [] then base else base ++ 0x2E#8 :: ext) : split83 x = some (base, ext) := by
  have hdot : ∀ c ∈ base ++ ext, c ≠ 0x2E#8 := fun c hc => (upper_shortChar c (hs c hc)).2.2.2.2
  have hbase : 0x2E#8 ∉ base := fun hm => hdot _ (List.mem_append_left _ hm) rfl
  by_cases hext : ext = []
  · rw [if_pos hext] at hx
    subst hx hext
    rw [split83, if_neg hbase]
    exact if_neg (by simpa using hb)
  · rw [if_neg hext] at hx
    subst hx
    have hin : 0x2E#8 ∈ base ++ 0x2E#8 :: ext := List.mem_append_right _ List.mem_cons_self
    have hrev : (base ++ 0x2E#8 :: ext).reverse = ext.reverse ++ 0x2E#8 :: base.reverse := by simp
    have hpos : ∀ c ∈ ext.reverse, decide (c ≠ 0x2E#8) = true := fun c hc =>
      decide_eq_true (hdot c (List.mem_append_right _ (List.mem_reverse.mp hc)))
    have htake : ((ext.reverse ++ 0x2E#8 :: base.reverse).takeWhile fun c => decide (c ≠ 0x2E#8)) = ext.reverse := by
      rw [List.takeWhile_append_of_pos hpos, List.takeWhile_cons_of_neg (by simp), List.append_nil]
    have hdrop : ((ext.reverse ++ 0x2E#8 :: base.reverse).dropWhile fun c => decide (c ≠ 0x2E#8)) = 0x2E#8 :: base.reverse := by
      rw [List.dropWhile_append_of_pos hpos, List.dropWhile_cons_of_neg (by simp)]
    rw [split83, if_pos hin, hrev, htake, hdrop, List.drop_one, List.tail_cons, List.reverse_reverse, List.reverse_reverse]
    exact if_neg (by simp; omega)

/-! ## Entries -/

section Entries

variable {base ext x e : List Byte} {attr : Byte} {cluster size : Nat}

/-- What `dirent` makes. -/
theorem espDirent_eq (h : espDirent base ext attr cluster size = some e) : size < 2 ^ 32 ∧ e = paddedName 8 base ++ paddedName 3 ext ++ [attr] ++
    List.replicate 8 0#8 ++ bytesLE 2 (cluster / 2 ^ 16 % 2 ^ 16) ++ bytesLE 2 0 ++ bytesLE 2 0x5821 ++ bytesLE 2 (cluster % 2 ^ 16) ++
    bytesLE 4 size := by
  rw [espDirent] at h
  split at h
  · cases h
  · cases h
    exact ⟨by omega, rfl⟩

/-- The fields of an entry. -/
theorem espDirent_fields (hb : base.length ≤ 8) (he : ext.length ≤ 3) (h : espDirent base ext attr cluster size = some e) :
    e.length = 32 ∧ e.take 8 = paddedName 8 base ∧ (e.drop 8).take 3 = paddedName 3 ext ∧ Image.ofList e 11 = attr ∧
      (Image.ofList e).number 26 2 + 2 ^ 16 * (Image.ofList e).number 20 2 = cluster % 2 ^ 32 ∧ (Image.ofList e).number 28 4 = size := by
  obtain ⟨hsize, rfl⟩ := espDirent_eq h
  obtain ⟨b, hb'⟩ : ∃ b, paddedName 8 base = b := ⟨_, rfl⟩
  obtain ⟨x, hx'⟩ : ∃ x, paddedName 3 ext = x := ⟨_, rfl⟩
  have hb8 : b.length = 8 := hb' ▸ length_paddedName hb
  have hx3 : x.length = 3 := hx' ▸ length_paddedName he
  rw [hb', hx']
  -- the eleven bytes of the name one by one, so that every field is at a place that can be computed
  obtain ⟨b0, b1, b2, b3, b4, b5, b6, b7, rfl⟩ : ∃ b0 b1 b2 b3 b4 b5 b6 b7, b = [b0, b1, b2, b3, b4, b5, b6, b7] := by
    match b, hb8 with
    | [b0, b1, b2, b3, b4, b5, b6, b7], _ => exact ⟨b0, b1, b2, b3, b4, b5, b6, b7, rfl⟩
  obtain ⟨x0, x1, x2, rfl⟩ : ∃ x0 x1 x2, x = [x0, x1, x2] := List.length_eq_three.mp hx3
  refine ⟨rfl, rfl, rfl, rfl, ?_, ?_⟩
  · have hlo : valueLE (bytesLE 2 (cluster % 2 ^ 16)) = cluster % 2 ^ 16 := valueLE_of_lt (by lia)
    have hhi : valueLE (bytesLE 2 (cluster / 2 ^ 16 % 2 ^ 16)) = cluster / 2 ^ 16 % 2 ^ 16 := valueLE_of_lt (by lia)
    change valueLE (bytesLE 2 (cluster % 2 ^ 16)) + 2 ^ 16 * valueLE (bytesLE 2 (cluster / 2 ^ 16 % 2 ^ 16)) = _
    rw [hlo, hhi]
    lia
  · have hfits : size < 256 ^ 4 := by lia
    change valueLE (bytesLE 4 size) = size
    exact valueLE_of_lt hfits

/-- The first byte of an entry is that of its name. -/
theorem head_of_take (hne : base ≠ []) (hb : base.length ≤ 8) (h : e.take 8 = paddedName 8 base) : ∃ c ∈ base, e.head? = some (upper c) := by
  obtain ⟨c, cs, rfl⟩ := List.exists_cons_of_ne_nil hne
  refine ⟨c, List.mem_cons_self, ?_⟩
  rw [paddedName_eq hb, List.map_cons, List.cons_append] at h
  cases e with
  | nil => exact nomatch h
  | cons b e =>
    rw [List.take_succ_cons] at h
    rw [List.head?_cons, (List.cons.inj h).1]

theorem ofList_zero {b : Byte} (h : e.head? = some b) : Image.ofList e 0 = b := by
  cases e with
  | nil => exact nomatch h
  | cons c e => exact Option.some.inj h

/-- An entry that `build_dir` makes for a child is read back. -/
theorem entryOf_entryFor (hx : IsShortName x) (hc : cluster < 2 ^ 32) (hattr : attr &&& 0x08#8 = 0#8)
    (h : Fat32.entryFor x attr cluster size = some e) : e.length = 32 ∧ e.head? ≠ some 0#8 ∧
      FatVolume.entryOf e = some ⟨x.map upper, decide (attr &&& 0x10#8 ≠ 0#8), cluster, size⟩ := by
  obtain ⟨base, ext, hne, hb, he, hs, hxeq⟩ := hx
  rw [Fat32.entryFor, split83_short hb he hs hxeq, Option.bind_some] at h
  obtain ⟨hlen, hname, hext, hat, hclus, hsize⟩ := espDirent_fields hb he h
  obtain ⟨c, hcb, hhead⟩ := head_of_take hne hb hname
  obtain ⟨-, hnul, hdel, hdot, -⟩ := upper_shortChar c (hs c (List.mem_append_left _ hcb))
  have hfirst := ofList_zero hhead
  have hshort : FatVolume.shortName e = x.map upper := by
    rw [FatVolume.shortName, hname, hext, trimmed_paddedName hb fun d hd => hs d (List.mem_append_left _ hd),
      trimmed_paddedName he fun d hd => hs d (List.mem_append_right _ hd), hxeq]
    by_cases hnil : ext = []
    · rw [if_pos hnil, hnil]
      rfl
    · have hnil' : ext.map upper ≠ [] := by simpa using hnil
      rw [if_neg hnil, if_neg hnil', List.map_append, List.map_cons]
      rfl
  refine ⟨hlen, ?_, ?_⟩
  · rw [hhead]
    exact fun heq => hnul (Option.some.inj heq)
  · rw [FatVolume.entryOf, hfirst, hat, if_neg (by simp [hdel, hdot, hattr]), hshort, hclus, hsize, Nat.mod_eq_of_lt hc]

/-- `.` and `..` are passed over. -/
theorem entryOf_dotEntries {self parent : Nat} {dots : List (List Byte)} (h : Fat32.dotEntries self parent = some dots) :
    ∀ e ∈ dots, e.length = 32 ∧ e.head? ≠ some 0#8 ∧ FatVolume.entryOf e = none := by
  have hdot : ∀ {base : List Byte} {cluster : Nat} {e : List Byte}, (∃ cs, base = 0x2E#8 :: cs) → base.length ≤ 8 →
      espDirent base [] 0x10#8 cluster 0 = some e → e.length = 32 ∧ e.head? ≠ some 0#8 ∧ FatVolume.entryOf e = none := by
    rintro base cluster e ⟨cs, rfl⟩ hb he
    have hnil : ([] : List Byte).length ≤ 3 := Nat.zero_le 3
    obtain ⟨hlen, hname, -⟩ := espDirent_fields hb hnil he
    have hhead : e.head? = some 0x2E#8 := by
      rw [paddedName_eq hb, List.map_cons, List.cons_append] at hname
      cases e with
      | nil => exact nomatch hlen
      | cons b e => exact congrArg some (List.cons.inj hname).1
    refine ⟨hlen, ?_, ?_⟩
    · rw [hhead]
      decide
    · rw [FatVolume.entryOf, ofList_zero hhead]
      exact if_pos (.inr (.inl rfl))
  rw [Fat32.dotEntries] at h
  obtain ⟨one, h1, h⟩ := Option.bind_eq_some_iff.mp h
  obtain ⟨two, h2, h⟩ := Option.bind_eq_some_iff.mp h
  cases h
  intro e he
  rcases List.mem_cons.mp he with rfl | he
  · exact hdot ⟨_, rfl⟩ (by decide) h1
  · rw [List.mem_singleton.mp he]
    exact hdot ⟨_, rfl⟩ (by decide) h2

end Entries

/-! ## Blocks -/

section Blocks

variable {es : List (List Byte)}

theorem length_flatten_entries (h : ∀ e ∈ es, e.length = 32) : es.flatten.length = 32 * es.length := by
  induction es with
  | nil => rfl
  | cons e es ih =>
    rw [List.flatten_cons, List.length_append, h e List.mem_cons_self, ih fun e he => h e (List.mem_cons_of_mem _ he), List.length_cons]
    lia

/-- A block cut into pieces of 32 bytes. -/
theorem cut_entries (h : ∀ e ∈ es, e.length = 32) (zs : List Byte) (k : Nat) :
    ((List.range (es.length + k)).map fun i => ((es.flatten ++ zs).drop (32 * i)).take 32) =
      es ++ (List.range k).map fun i => (zs.drop (32 * i)).take 32 := by
  induction es with
  | nil => rw [List.length_nil, Nat.zero_add, List.flatten_nil, List.nil_append, List.nil_append]
  | cons e es ih =>
    have he := h e List.mem_cons_self
    have hlen : (e :: es).length + k = es.length + k + 1 := by
      rw [List.length_cons]
      lia
    rw [hlen, List.range_succ_eq_map, List.map_cons, List.map_map, List.flatten_cons, List.append_assoc, List.cons_append,
      ← ih fun e he => h e (List.mem_cons_of_mem _ he)]
    congr 1
    · rw [Nat.mul_zero, List.drop_zero, List.take_left' he]
    · refine List.map_congr_left fun i _ => ?_
      have hnext : 32 * (i + 1) = e.length + 32 * i := by lia
      rw [Function.comp_apply, Nat.succ_eq_add_one, hnext, List.drop_append, List.drop_of_length_le (Nat.le_add_right _ _),
        Nat.add_sub_cancel_left, List.nil_append]

/-- The entries of a block that ends in zeros. -/
theorem entriesOf_block (h : ∀ e ∈ es, e.length = 32 ∧ e.head? ≠ some 0#8) (hroom : es.flatten.length ≤ 512) :
    FatVolume.entriesOf (es.flatten ++ List.replicate (512 - es.flatten.length) 0#8) = es.filterMap FatVolume.entryOf := by
  have hlen := length_flatten_entries fun e he => (h e he).1
  obtain ⟨k, hk⟩ : ∃ k, es.length + k = 16 := ⟨16 - es.length, by lia⟩
  have htotal : (es.flatten ++ List.replicate (512 - es.flatten.length) 0#8).length / 32 = es.length + k := by
    rw [List.length_append, List.length_replicate]
    lia
  rw [FatVolume.entriesOf, htotal, cut_entries fun e he => (h e he).1, List.takeWhile_append_of_pos fun e he => decide_eq_true (h e he).2]
  -- behind the entries there is nothing, or a piece of zeros
  have hnone : (((List.range k).map fun i => ((List.replicate (512 - es.flatten.length) 0#8).drop (32 * i)).take 32).takeWhile
      fun e => decide (e.head? ≠ some 0#8)) = [] := by
    cases k with
    | zero => rfl
    | succ k =>
      rw [List.range_succ_eq_map, List.map_cons, List.takeWhile_cons_of_neg]
      have hpos : 512 - es.flatten.length = 31 + (512 - es.flatten.length - 31) := by lia
      obtain ⟨n, hn⟩ : ∃ n, 512 - es.flatten.length = n + 1 := ⟨512 - es.flatten.length - 1, by lia⟩
      rw [hn, Nat.mul_zero, List.drop_zero, List.replicate_succ, List.take_succ_cons]
      simp
  rw [hnone, List.append_nil]

end Blocks

end MiniOs32
