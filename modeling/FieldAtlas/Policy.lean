import FieldAtlas.Json.Record
import FieldAtlas.Text.Search

/-!
# `Policy` — how lenient resolution is

A policy does not change what the tree is.  It says whether an attribute key that the schema
does not list may be made up, which member names are accepted beside the regular ones, on
which fields a failure is expected, and how many diagnostics are kept.
-/

namespace FieldAtlas

/-- What resolution puts up with. -/
structure Policy where
  /-- Make up an entry for a key that the bag does not list. -/
  synthesize : Bool := false
  /-- Member names that are valid although they hold lower-case letters. -/
  irregularNames : List String :=
    ["AUTHOR_HISTORY_REALTIME_PURCHASE_TIMESTAMP_Flag",
     "USER_HISTORY_REALTIME_PURCHASE_TIMESTAMP_Flag",
     "LPS_LLM_LANDING_USER_LPS_1cate_30D"]
  /-- How further irregular names begin. -/
  irregularPrefixes : List String := ["LPS_LLM_LANDING_USER"]
  /-- Fields that live outside the schema. -/
  outsideFields : List String :=
    ["reco_user_info",
     "ad_user_history_photo_embedding",
     "is_train",
     "ad_user_ad_action_map",
     "h_maplist_append_req",
     "colossus_ad_live_item",
     "colossus_reco_live_v1_item",
     "colossus_reco_live_item",
     "colossus_ad_goods_item",
     "colossus_ad_goods_item_new",
     "colossus_ad_goods_item_new_pdn_v0",
     "colossus_reco_photo",
     "colossus_reco_photo_v3",
     "colossus_reco_photo_v3_pdn_v0",
     "colossus_ad_live_spu",
     "colossus_ad_live_cid3",
     "author_cluster_map",
     "live_cluster_map",
     "ad_live_global_gsu_result",
     "ad_live_ecomm_gsu_result",
     "ad_live_author_gsu_result",
     "ad_live_spu_gsu_result",
     "ad_live_cid3_gsu_result",
     "ad_live_author_cluster_gsu_result",
     "ad_live_remote_cluster_gsu_result",
     "reco_live_global_gsu_result",
     "reco_live_author_gsu_result",
     "reco_live_author_cluster_gsu_result",
     "reco_live_remote_cluster_gsu_result",
     "reco_live_v1_remote_cluster_gsu_result",
     "ad_live_colossus_idx_filtered_by_playtime",
     "ad_live_colossus_idx_filtered_by_label",
     "reco_live_colossus_idx_filtered_by_playtime",
     "ad_user_all_goods_action",
     "ad_user_history_pdct_embedding",
     "ad_user_histactpdct_pdct",
     "ad_user_histactpdct_firstid",
     "ad_user_histactpdct_secondid",
     "ad_user_histactpdct_u2uemb",
     "ad_user_histact_weight",
     "ad_user_histact_type",
     "picasso_ad_goods_item",
     "ad_live_delivering_author",
     "living_author_set",
     "ad_live_offline_sample_set"]
  /-- How many diagnostics a resolver keeps. -/
  maxDiagnostics : Nat := 10000
  deriving DecidableEq, Repr

namespace Policy

/-- A key that the schema does not list fails. -/
def strict : Policy := {}

/-- A key that the schema does not list is made up. -/
def synthesizing : Policy := { strict with synthesize := true }

/-- A member name that is listed, or begins as a listed prefix says. -/
def isIrregular (p : Policy) (name : String) : Bool :=
  p.irregularNames.contains name || p.irregularPrefixes.any (Text.startsWith · name)

/-- Whether the path mentions a field outside the schema, anywhere in its text. -/
def isOutside (p : Policy) (path : String) : Bool := p.outsideFields.any (Text.contains · path)

def addOutside (p : Policy) (field : String) : Policy :=
  { p with outsideFields := p.outsideFields ++ [field] }

/-! ## As JSON -/

open Json

def toJson (p : Policy) : Json :=
  .obj [
    ("synthesize_on_miss", .bool p.synthesize),
    ("irregular_member_names", strings p.irregularNames),
    ("irregular_member_prefixes", strings p.irregularPrefixes),
    ("opaque_fields", strings p.outsideFields),
    ("max_diagnostics", .int p.maxDiagnostics)]

/-- Reads a policy; what is absent is as in the strict one. -/
def ofJson? (j : Json) : Option Policy := do
  let members ← j.record? ["synthesize_on_miss", "irregular_member_names",
    "irregular_member_prefixes", "opaque_fields", "max_diagnostics"]
  some {
    synthesize := ← optional? members "synthesize_on_miss" bool? strict.synthesize
    irregularNames :=
      ← optional? members "irregular_member_names" strings? strict.irregularNames
    irregularPrefixes :=
      ← optional? members "irregular_member_prefixes" strings? strict.irregularPrefixes
    outsideFields := ← optional? members "opaque_fields" strings? strict.outsideFields
    maxDiagnostics := ← optional? members "max_diagnostics" nat64? strict.maxDiagnostics }

end Policy

end FieldAtlas
