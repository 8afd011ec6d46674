import TrackingPlan.Proofs.Plan.Assembly

/-!
# Building a plan entry by entry

Every step of the pass over a document keeps the plan equal to the assembled
plan of the drafts so far: a track or a screen either fails, or adds its draft
at the end.
-/

namespace TrackingPlan

namespace Draft

/-- A screen as a draft. All tracks that it lists have to be known. -/
def ofScreenEntry (formats : FormatRegistry) (known : List String)
    (entry : String × Option EventDefinition) : Except Fault Draft := do
  let draft ← ofEntry formats .screen entry
  match draft.listed.find? (!known.contains ·) with
  | some key => .error (.ofCause (.notFound "tracks" key))
  | none => .ok draft

theorem linked_append {drafts : List Draft} {draft : Draft} (hmem : draft ∈ drafts)
    (more : List String) :
    draft.linked (allMentions drafts ++ more).eraseDups =
      draft.linked (allMentions drafts).eraseDups := by
  have hmentions : ∀ name ∈ draft.mentions, name ∈ allMentions drafts :=
    fun name hname => List.mem_flatMap.mpr ⟨draft, hmem, hname⟩
  unfold linked
  rw [places_append hmentions]

theorem allMentions_concat (drafts : List Draft) (draft : Draft) :
    allMentions (drafts ++ [draft]) = allMentions drafts ++ draft.mentions := by
  simp [allMentions]

end Draft

namespace Feature

theorem assembled_concat_track (tracks screens : List Draft) (draft : Draft) (name : String) :
    assembled (tracks ++ [draft]) screens name =
      if name ∈ draft.mentions then
        { assembled tracks screens name with
          tracks := (assembled tracks screens name).tracks ++ [⟨tracks.length⟩] }
      else assembled tracks screens name := by
  by_cases hmem : name ∈ draft.mentions
  · simp [assembled, hmem, List.findIdxs_append]
  · simp [assembled, hmem, List.findIdxs_append]

theorem assembled_concat_screen (tracks screens : List Draft) (draft : Draft) (name : String) :
    assembled tracks (screens ++ [draft]) name =
      if name ∈ draft.mentions then
        { assembled tracks screens name with
          screens := (assembled tracks screens name).screens ++ [⟨screens.length⟩] }
      else assembled tracks screens name := by
  by_cases hmem : name ∈ draft.mentions
  · simp [assembled, hmem, List.findIdxs_append]
  · simp [assembled, hmem, List.findIdxs_append]

end Feature

namespace Track

/-- The track with a link to the screen, if one of the listed keys is its own. -/
def fired (id : ScreenId) (listed : List String) (track : Track) : Track :=
  if track.event.key ∈ listed ∧ id ∉ track.screens then
    { track with screens := track.screens ++ [id] }
  else track

@[simp] theorem fired_event (id : ScreenId) (listed : List String) (track : Track) :
    (track.fired id listed).event = track.event := by
  unfold fired
  split <;> rfl

@[simp] theorem fired_nil (id : ScreenId) (track : Track) : track.fired id [] = track := by
  simp [fired]

/-- A key that is listed again links nothing more. -/
theorem fired_fired (id : ScreenId) (key : String) (rest : List String) (track : Track) :
    (track.fired id [key]).fired id rest = track.fired id (key :: rest) := by
  by_cases hlinked : id ∈ track.screens
  · simp [fired, hlinked]
  · by_cases hkey : track.event.key = key
    · simp [fired, hlinked, hkey]
    · simp [fired, hlinked, hkey]

theorem fired_assembled (names : List String) (screens : List Draft) (screen draft : Draft) :
    (assembled names screens draft).fired ⟨screens.length⟩ screen.listed =
      assembled names (screens ++ [screen]) draft := by
  -- The new screen stands behind all that the track is fired on.
  have hfresh : ScreenId.mk screens.length ∉ (assembled names screens draft).screens := by
    intro hmem
    simp only [assembled, List.mem_map, ScreenId.mk.injEq] at hmem
    obtain ⟨index, hindex, rfl⟩ := hmem
    have hlt := List.lt_add_of_mem_findIdxs _ hindex
    omega
  by_cases hlisted : draft.event.key ∈ screen.listed
  · rw [fired, if_pos ⟨hlisted, hfresh⟩]
    simp [assembled, hlisted, List.findIdxs_append]
  · rw [fired, if_neg (fun h => hlisted h.1)]
    simp [assembled, hlisted, List.findIdxs_append]

theorem onScreen_fired (id other : ScreenId) (listed : List String) (screen : Event)
    (track : Track) : (track.fired id listed).onScreen other screen = track.onScreen other screen := by
  unfold onScreen
  rw [fired_event]

end Track

namespace Plan

theorem assembled_names (tracks screens : List Draft) :
    (assembled tracks screens).features.map (·.name) =
      (Draft.allMentions (tracks ++ screens)).eraseDups := by
  simp [assembled, Function.comp_def, Feature.assembled]

@[simp] theorem assembled_keys (tracks screens : List Draft) :
    (assembled tracks screens).tracks.map (·.event.key) = tracks.map (·.event.key) := by
  simp [assembled, Function.comp_def, Track.assembled, Draft.linked]

@[simp] theorem assembled_tracks_length (tracks screens : List Draft) :
    (assembled tracks screens).tracks.length = tracks.length := by
  simp [assembled]

@[simp] theorem assembled_screens_length (tracks screens : List Draft) :
    (assembled tracks screens).screens.length = screens.length := by
  simp [assembled]

/-- Features that are new have no links, like those that nobody mentions. -/
theorem withMore_assembled_features (tracks screens : List Draft) (mentions : List String) :
    ((assembled tracks screens).withMore
        (mentions.removeAll (Draft.allMentions (tracks ++ screens))).eraseDups).features =
      (Draft.allMentions (tracks ++ screens) ++ mentions).eraseDups.map
        (Feature.assembled tracks screens) := by
  have hfresh : ((mentions.removeAll (Draft.allMentions (tracks ++ screens))).eraseDups).map
        Feature.unlinked =
      ((mentions.removeAll (Draft.allMentions (tracks ++ screens))).eraseDups).map
        (Feature.assembled tracks screens) := by
    apply List.map_congr_left
    intro name hname
    simp only [List.mem_eraseDups, List.removeAll, List.mem_filter] at hname
    exact (Feature.assembled_of_not_mentioned (by simpa using hname.2)).symm
  rw [List.eraseDups_append, List.map_append, ← hfresh]
  rfl

/-- Linking an event changes the features that it mentions. -/
theorem linkFeatures_map {names mentions : List String} (hnodup : names.Nodup)
    (hmem : ∀ name ∈ mentions, name ∈ names) (feature : String → Feature)
    (link : Feature → Feature) :
    linkFeatures (names.map feature) (Draft.places names mentions) link =
      names.map fun name => if name ∈ mentions then link (feature name) else feature name := by
  apply List.ext_getElem?
  intro index
  unfold linkFeatures
  rw [List.getElem?_mapIdx, List.getElem?_map, List.getElem?_map]
  cases hname : names[index]? with
  | none => rfl
  | some name =>
      simp only [Option.map_some, List.contains_iff_mem,
        Draft.mem_places_iff hnodup hmem hname]

/-- An event mentions its features before it is linked to anything. -/
theorem addEvent_eq {formats : FormatRegistry} {kind : EventKind} {plan : Plan}
    {mentioned : List String} (entry : String × Option EventDefinition)
    (hnames : plan.features.map (·.name) = mentioned.eraseDups) :
    plan.addEvent formats kind entry.1 entry.2 = do
      let draft ← Draft.ofEntry formats kind entry
      return (plan.withMore (draft.mentions.removeAll mentioned).eraseDups,
        draft.linked (mentioned ++ draft.mentions).eraseDups) := by
  have hpayload : ({ entry.2.getD .empty with key := some entry.1 } : EventDefinition).payload =
      (entry.2.getD .empty).payload := rfl
  unfold addEvent Draft.ofEntry Event.ofDefinition
  dsimp only
  rw [hpayload]
  cases Record.ofFragment formats (entry.2.getD .empty).payload with
  | error fault => rfl
  | ok payload =>
      simp only [bind, Except.bind, pure, Except.pure, internFeatures_eq _ hnames]
      rfl

/-- Linking an event that was just added. -/
theorem linkFeatures_assembled (tracks screens : List Draft) (draft : Draft)
    (link : Feature → Feature) :
    linkFeatures
        ((assembled tracks screens).withMore
          (draft.mentions.removeAll (Draft.allMentions (tracks ++ screens))).eraseDups).features
        (draft.linked
          (Draft.allMentions (tracks ++ screens) ++ draft.mentions).eraseDups).features link =
      (Draft.allMentions (tracks ++ screens) ++ draft.mentions).eraseDups.map fun name =>
        if name ∈ draft.mentions then link (Feature.assembled tracks screens name)
        else Feature.assembled tracks screens name := by
  rw [withMore_assembled_features]
  refine linkFeatures_map (nodup_eraseDups _) ?_ _ link
  intro name hname
  exact List.mem_eraseDups.mpr (List.mem_append_right _ hname)

/-- A track adds its draft behind those before it. -/
theorem addTrack_assembled (formats : FormatRegistry) (tracks : List Draft)
    (entry : String × Option EventDefinition) :
    (assembled tracks []).addTrack formats entry.1 entry.2 = do
      let draft ← Draft.ofEntry formats .track entry
      return assembled (tracks ++ [draft]) [] := by
  unfold addTrack
  rw [addEvent_eq entry (assembled_names tracks [])]
  cases Draft.ofEntry formats .track entry with
  | error fault => rfl
  | ok draft =>
      simp only [bind, Except.bind, pure, Except.pure, linkFeatures_assembled, withMore_tracks,
        assembled_tracks_length]
      -- There is no screen yet: a track changes features, and the places of their names.
      refine congrArg Except.ok (Plan.ext ?_ rfl ?_ rfl rfl)
      · simp only [assembled, List.append_nil, Draft.allMentions_concat]
        congr 1
        funext name
        rw [Feature.assembled_concat_track]
      · simp only [assembled, List.append_nil, List.map_append, List.map_singleton,
          Draft.allMentions_concat]
        congr 1
        apply List.map_congr_left
        intro track htrack
        unfold Track.assembled
        rw [Draft.linked_append htrack]

/-- The plan in which the tracks with the keys are fired on one more screen. -/
def fire (plan : Plan) (id : ScreenId) (keys : List String) : Plan :=
  { plan with tracks := plan.tracks.map (·.fired id keys) }

theorem fire_keys (plan : Plan) (id : ScreenId) (keys : List String) :
    (plan.fire id keys).tracks.map (·.event.key) = plan.tracks.map (·.event.key) := by
  simp [fire, Function.comp_def]

theorem findTrack?_fire (plan : Plan) (id : ScreenId) (keys : List String) (key : String) :
    (plan.fire id keys).findTrack? key = (plan.findTrack? key).map (·.fired id keys) := by
  unfold findTrack? fire
  rw [List.find?_map]
  congr 2
  funext track
  rw [Function.comp_apply, Track.fired_event]

theorem fire_fire (plan : Plan) (id : ScreenId) (key : String) (rest : List String) :
    (plan.fire id [key]).fire id rest = plan.fire id (key :: rest) := by
  simp [fire, Function.comp_def, Track.fired_fired]

theorem findTrack?_eq_none_iff (plan : Plan) (key : String) :
    plan.findTrack? key = none ↔ key ∉ plan.tracks.map (·.event.key) := by
  simp [findTrack?]

/-- Keys are distinct, so one track at most has the key. -/
theorem set_fired {tracks : List Track} (hnodup : (tracks.map (·.event.key)).Nodup) {index : Nat}
    {track : Track} (hget : tracks[index]? = some track) (id : ScreenId) :
    tracks.set index (track.fired id [track.event.key]) =
      tracks.map (·.fired id [track.event.key]) := by
  obtain ⟨hlt, -⟩ := List.getElem?_eq_some_iff.mp hget
  apply List.ext_getElem?
  intro place
  rw [List.getElem?_set, List.getElem?_map]
  by_cases hplace : index = place
  · subst place
    rw [if_pos rfl, if_pos hlt, hget]
    rfl
  · rw [if_neg hplace]
    cases hother : tracks[place]? with
    | none => rfl
    | some other =>
        -- Distinct keys are what keeps the other tracks from being fired.
        have hkey : other.event.key ≠ track.event.key := by
          intro heq
          apply hplace
          refine (List.getElem?_inj (by simpa using hlt) hnodup).mp ?_
          rw [List.getElem?_map, List.getElem?_map, hget, hother]
          simp [heq]
        simp [Track.fired, hkey]

/-- A known key links the one track that has it, and copies that track. -/
theorem addListed_of_findTrack? {plan : Plan} (hnodup : (plan.tracks.map (·.event.key)).Nodup)
    (id : ScreenId) (screen : Event) {key : String} {track : Track}
    (hfind : plan.findTrack? key = some track) :
    plan.addListed id screen key = .ok (plan.fire id [key], track.onScreen id screen) := by
  have hplace := hfind
  unfold findTrack? at hplace
  rw [List.find?_eq_bind_findIdx?_getElem?, Option.bind_eq_some_iff] at hplace
  obtain ⟨index, hindex, hget⟩ := hplace
  have hkey : track.event.key = key := by
    simpa [findTrack?] using List.find?_some hfind
  subst key
  have hfired : (if track.screens.contains id then track
      else { track with screens := track.screens ++ [id] }) =
      track.fired id [track.event.key] := by
    by_cases hlinked : id ∈ track.screens
    · simp [Track.fired, hlinked]
    · simp [Track.fired, hlinked]
  unfold addListed findTrackId?
  rw [hfind, hindex]
  simp only [Option.map_some, hfired, set_fired hnodup hget id, fire]

theorem addListed_of_unknown {plan : Plan} (id : ScreenId) (screen : Event) {key : String}
    (hfind : plan.findTrack? key = none) :
    plan.addListed id screen key = .error (.ofCause (.notFound "tracks" key)) := by
  unfold addListed
  rw [hfind]
  cases plan.findTrackId? key <;> rfl

/-- The listed tracks are linked and copied in order, up to the first unknown key. -/
theorem addListedAll_eq {plan : Plan} (hnodup : (plan.tracks.map (·.event.key)).Nodup)
    (id : ScreenId) (screen : Event) (keys : List String) :
    plan.addListedAll id screen keys =
      match keys.find? (!(plan.tracks.map (·.event.key)).contains ·) with
      | some key => .error (.ofCause (.notFound "tracks" key))
      | none => .ok (plan.fire id keys,
          keys.filterMap fun key => (plan.findTrack? key).map (·.onScreen id screen)) := by
  induction keys generalizing plan with
  | nil => simp [addListedAll, fire]
  | cons key rest ih =>
      unfold addListedAll
      cases hfind : plan.findTrack? key with
      | none =>
          have hkey := (findTrack?_eq_none_iff plan key).mp hfind
          rw [addListed_of_unknown id screen hfind, List.find?_cons_of_pos (by simpa using hkey)]
          rfl
      | some track =>
          have hkey : key ∈ plan.tracks.map (·.event.key) := by
            by_contra hmem
            rw [(findTrack?_eq_none_iff plan key).mpr hmem] at hfind
            cases hfind
          have hkeys : ((plan.fire id [key]).tracks.map (·.event.key)).Nodup := by
            rw [fire_keys]
            exact hnodup
          -- The rest of the keys is looked up in the plan that this key has left.
          have hrest := ih hkeys
          rw [fire_keys, fire_fire] at hrest
          rw [addListed_of_findTrack? hnodup id screen hfind,
            List.find?_cons_of_neg (by simpa using hkey)]
          simp only [bind, Except.bind, hrest]
          cases rest.find? (!(plan.tracks.map (·.event.key)).contains ·) with
          | some unknown => rfl
          | none =>
              simp only [pure, Except.pure, findTrack?_fire, Option.map_map, Function.comp_def,
                Track.onScreen_fired, List.filterMap_cons, hfind, Option.map_some]

/-- Copies are taken from the tracks as they are drafted: links make no difference to them. -/
theorem addListedAll_assembled (tracks screens : List Draft)
    (hnodup : (tracks.map (·.event.key)).Nodup) (more names : List String) (draft : Draft) :
    ((assembled tracks screens).withMore more).addListedAll ⟨screens.length⟩
        (draft.linked names) draft.listed =
      match draft.listed.find? (!(tracks.map (·.event.key)).contains ·) with
      | some key => .error (.ofCause (.notFound "tracks" key))
      | none => .ok (((assembled tracks screens).withMore more).fire ⟨screens.length⟩ draft.listed,
          (Screen.assembled names tracks screens.length draft).tracks) := by
  have hfind : ∀ key, ((assembled tracks screens).withMore more).findTrack? key =
      (tracks.find? (·.event.key == key)).map (Track.assembled
        (Draft.allMentions (tracks ++ screens)).eraseDups screens) := by
    intro key
    simp only [findTrack?, withMore_tracks, assembled]
    rw [List.find?_map]
    rfl
  have hcopies : (draft.listed.filterMap fun key =>
        (((assembled tracks screens).withMore more).findTrack? key).map
          (·.onScreen ⟨screens.length⟩ (draft.linked names))) =
      (Screen.assembled names tracks screens.length draft).tracks := by
    unfold Screen.assembled
    congr 1
    funext key
    rw [hfind, Option.map_map]
    rfl
  rw [addListedAll_eq (by rw [withMore_tracks, assembled_keys]; exact hnodup), withMore_tracks,
    assembled_keys, hcopies]

/-- A screen whose listed tracks are all known adds its draft behind those before it. -/
theorem addScreen_assembled (formats : FormatRegistry) (tracks screens : List Draft)
    (hnodup : (tracks.map (·.event.key)).Nodup) (entry : String × Option EventDefinition) :
    (assembled tracks screens).addScreen formats entry.1 entry.2 = do
      let draft ← Draft.ofScreenEntry formats (tracks.map (·.event.key)) entry
      return assembled tracks (screens ++ [draft]) := by
  unfold addScreen Draft.ofScreenEntry
  rw [addEvent_eq entry (assembled_names tracks screens)]
  unfold Draft.ofEntry
  cases Record.ofFragment formats (entry.2.getD .empty).payload with
  | error fault => rfl
  | ok payload =>
      have hlisted : (entry.2.getD .empty).tracks =
        (Draft.ofPayload .screen entry payload).listed := rfl
      simp only [bind, Except.bind, pure, Except.pure, hlisted]
      generalize Draft.ofPayload .screen entry payload = draft
      rw [withMore_screens, assembled_screens_length, addListedAll_assembled tracks screens hnodup]
      cases draft.listed.find? (!(tracks.map (·.event.key)).contains ·) with
      | some key => rfl
      | none =>
          have hmentions : Draft.allMentions (tracks ++ (screens ++ [draft])) =
              Draft.allMentions (tracks ++ screens) ++ draft.mentions := by
            rw [← List.append_assoc, Draft.allMentions_concat]
          -- Features learn of the screen, the screen comes last, and tracks get their links.
          refine congrArg Except.ok (Plan.ext ?_ ?_ ?_ rfl rfl)
          · refine (linkFeatures_assembled tracks screens draft _).trans ?_
            simp only [assembled, hmentions]
            congr 1
            funext name
            rw [Feature.assembled_concat_screen]
          · simp only [fire, withMore_screens, assembled, hmentions]
            rw [List.mapIdx_concat]
            congr 1
            apply List.mapIdx_eq_mapIdx_iff.mpr
            intro index hindex
            unfold Screen.assembled
            rw [Draft.linked_append (List.mem_append_right _ (List.getElem_mem hindex))]
          · simp only [fire, withMore_tracks, assembled, hmentions, List.map_map]
            apply List.map_congr_left
            intro track htrack
            rw [Function.comp_apply, Track.fired_assembled]
            unfold Track.assembled
            rw [Draft.linked_append (List.mem_append_left _ htrack)]

end Plan

end TrackingPlan
