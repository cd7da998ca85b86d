import PiecewiseNet.Proofs.Network.Clipping

/-!
# Clipping to the whole network

The default range keeps all layers, and of the last layer the first nodes of its neurons. A network
of layers can always be clipped to this range.

## Main statements

- `Network.chainAt_trimmed_whole`: what the default range keeps.
- `Network.exists_duplicateAndClip`: copying and clipping a network of layers.
-/

namespace PiecewiseNet

variable {α : Type}

namespace Network

variable {net net' : Network} {a b : Arena α}

theorem keptLayers_whole (hne : net.layers ≠ []) : net.keptLayers {} = net.layers := by
  have hpos := List.length_pos_iff.2 hne
  refine List.take_of_length_le ?_
  show net.layers.length ≤ net.layers.length - 1 - 0 + 1
  omega

/-- Of the whole network the first nodes of the last layer are kept, and all earlier layers. -/
theorem chainAt_trimmed_whole (hne : net.layers ≠ []) (l n : Nat) :
    chainAt (net.trimmed {}).layers l n =
      (chainAt net.layers l n).map fun c => if l + 1 = net.layerCount then c.take 1 else c := by
  rw [chainAt_trimmed, keptLayers_whole hne]
  refine congrArg (Option.map · _) (funext fun c => ?_)
  simp only [ClipRange.keep, List.drop_zero, ite_self, Nat.zero_add, layerCount]
  rfl

theorem layerSize_trimmed_whole (hne : net.layers ≠ []) (l : Nat) :
    (net.trimmed {}).layerSize l = net.layerSize l :=
  layerSize_congr fun n => by
    rw [chainAt_trimmed_whole hne]
    simp

/-- What is kept of the whole of a network of layers is well-formed. -/
theorem wellFormed_trimmed_whole (hnet : net.WellFormed a) (he : net.ReadsEarlier a) :
    (net.trimmed {}).WellFormed (a.freed (net.trimmed {}).inputs) := by
  have hat := chainAt_trimmed_whole hnet.layers_ne_nil
  have hprefix : ∀ l n c, chainAt (net.trimmed {}).layers l n = some c →
      ∃ c₀, chainAt net.layers l n = some c₀ ∧ c <+: c₀ := by
    intro l n c hc
    rw [hat, Option.map_eq_some_iff] at hc
    obtain ⟨c₀, hc₀, rfl⟩ := hc
    refine ⟨c₀, hc₀, ?_⟩
    split
    · exact List.take_prefix _ _
    · exact List.prefix_rfl
  refine wellFormed_of_reads_earlier ?_ ?_ ?_ (nodup_trimmed hnet.nodup) ?_
  · rw [trimmed, keptLayers_whole hnet.layers_ne_nil, ne_eq, List.mapIdx_eq_nil_iff]
    exact hnet.layers_ne_nil
  · intro l n c hc
    rw [hat, Option.map_eq_some_iff] at hc
    obtain ⟨c₀, hc₀, rfl⟩ := hc
    have hne := hnet.chains_ne_nil l n c₀ hc₀
    split
    · rw [ne_eq, List.take_eq_nil_iff, not_or]
      exact ⟨Nat.one_ne_zero, hne⟩
    · exact hne
  · intro id hid
    rw [Arena.size_freed]
    exact hnet.held id (nodes_trimmed_subset hid)
  · intro l n pre id post t hc ht
    obtain ⟨c₀, hc₀, rest, rfl⟩ := hprefix l n _ hc
    rw [List.append_assoc, List.cons_append] at hc₀
    have hread := (Arena.reads_freed_iff.1 ht).2
    rcases hnet.reads_from he hc₀ hread with hpre | ⟨l', n', c', hlt, hc', htc'⟩
    · exact .inl hpre
    · refine .inr ⟨l', n', c', hlt, ?_, htc'⟩
      have hl := lt_layerCount hc₀
      rw [hat, hc', Option.map_some, if_neg (by omega)]

/-- The whole of a network can be clipped if what is kept of it is well-formed. -/
theorem exists_clip_whole (hnet : net.WellFormed a)
    (hkept : (net.trimmed {}).WellFormed (a.freed (net.trimmed {}).inputs)) :
    ∃ net' b, (net.clip {}).Yields a net' b := by
  have hpos := List.length_pos_iff.2 hnet.layers_ne_nil
  have hlayers := keptLayers_whole hnet.layers_ne_nil
  cases hsplit : net.layers with
  | nil => exact absurd hsplit hnet.layers_ne_nil
  | cons first rest =>
    rw [hsplit] at hlayers
    have hne : ∀ c ∈ first, 0 < c.length := by
      intro c hc
      obtain ⟨n, hn⟩ := List.mem_iff_getElem?.1 hc
      exact List.length_pos_iff.2 (hnet.chains_ne_nil 0 n c (by rw [hsplit]; exact hn))
    have hheld : ∀ id ∈ first.flatten, id < a.size := fun id hid =>
      hnet.held id (keptLayers_subset hlayers hid)
    obtain ⟨⟨first', table⟩, b, hsever⟩ := exists_severLayer Substitution.empty hheld hne
    obtain ⟨-, -, hfirst'⟩ :=
      severLayer_yields hsever (nodup_first hnet.nodup hlayers) hheld fun _ _ => rfl
    have hlong : ∀ l n c, l + 1 = (first' :: rest).length →
        chainAt (first' :: rest) l n = some c → 0 < c.length := by
      rintro (_ | l) n c hl hc
      · rw [chainAt_cons_zero, hfirst', List.getElem?_map, Option.map_eq_some_iff] at hc
        obtain ⟨c₀, hc₀, rfl⟩ := hc
        simpa using hne c₀ (List.mem_of_getElem? hc₀)
      · refine List.length_pos_iff.2 (hnet.chains_ne_nil (l + 1) n c ?_)
        rw [hsplit]
        exact hc
    obtain ⟨layers, htruncate⟩ := exists_truncateLast (α := α) hlong
    have hsevered := severed_of_yields hnet.nodup hnet.held hlayers hsever htruncate
    obtain ⟨c, hredirect⟩ :=
      Edit.exists_redirectAll (s := table) (hsevered.held hnet.held)
    obtain ⟨hcopy, -⟩ := hsevered.copy hnet.nodup hnet.held hredirect
    refine ⟨⟨layers⟩, c, ?_⟩
    have hcount : ¬net.layerCount ≤ ClipRange.resolveLast {} net.layerCount := by
      show ¬net.layers.length ≤ net.layers.length - 1
      omega
    have hfirst : ¬ClipRange.resolveLast {} net.layerCount < ({} : ClipRange).firstLayer :=
      Nat.not_lt_zero _
    rw [keptLayers] at hlayers
    unfold clip
    dsimp only
    rw [if_neg hcount, if_neg hfirst, hlayers]
    exact Edit.yields_bind.2 ⟨(first', table), b, hsever, Edit.yields_bind.2 ⟨layers, b,
      Edit.yields_ofExcept.2 ⟨htruncate, rfl⟩, Edit.yields_bind.2 ⟨_, c, hredirect,
        Edit.yields_reading.2 ⟨new_eq_ok_iff.2 ⟨rfl, hcopy.wellFormed hkept⟩, rfl⟩⟩⟩⟩

/-- The whole of a network of at least two layers can be clipped. -/
theorem exists_duplicateAndClip (suffix : String) (hnet : net.WellFormed a)
    (he : net.ReadsEarlier a) (hcount : 2 ≤ net.layerCount) :
    ∃ net' b, (net.duplicateAndClip {} suffix).Yields a net' b := by
  obtain ⟨dup, b, hdup⟩ := exists_duplicate suffix hnet
  obtain ⟨f, hcopy, -, -, hdupwell⟩ := duplicate_yields hdup hnet.nodup hnet.held
  obtain ⟨net', c, hclip⟩ := exists_clip_whole hdupwell
    ((hcopy.trimmed {}).wellFormed (wellFormed_trimmed_whole hnet he))
  refine ⟨net', c, ?_⟩
  have hrange : ¬ClipRange.resolveLast {} net.layerCount ≤ ({} : ClipRange).firstLayer := by
    show ¬net.layerCount - 1 ≤ 0
    omega
  unfold duplicateAndClip
  dsimp only
  rw [if_neg hrange]
  exact Edit.yields_bind.2 ⟨dup, b, hdup, hclip⟩

end Network

end PiecewiseNet
