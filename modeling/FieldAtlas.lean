import FieldAtlas.Classification
import FieldAtlas.Description.Json
import FieldAtlas.FieldSummary
import FieldAtlas.Json.Printer
import FieldAtlas.Json.Reader
import FieldAtlas.Proofs.Atlas.Sharing
import FieldAtlas.Proofs.Description.RoundTrip
import FieldAtlas.Proofs.Path.Marker
import FieldAtlas.Proofs.Resolution.Accessor
import FieldAtlas.Proofs.Resolution.Anchor
import FieldAtlas.Proofs.Resolution.CanonicalPath
import FieldAtlas.Proofs.Resolution.DualIndex
import FieldAtlas.Proofs.Resolution.EnumName
import FieldAtlas.Proofs.Resolution.ExternalKey
import FieldAtlas.Proofs.Resolution.History
import FieldAtlas.Proofs.Resolution.NodeRoundTrip
import FieldAtlas.Proofs.Resolution.OutsideFields
import FieldAtlas.Proofs.Resolution.Summary
import FieldAtlas.Proofs.Resolution.Tagged
import FieldAtlas.Proofs.Tree.Dump
import FieldAtlas.Proofs.Tree.Flattened
import FieldAtlas.Proofs.Tree.LeafTypes
import FieldAtlas.Proofs.Tree.MemberKeys
import FieldAtlas.Proofs.Tree.Repetition
import FieldAtlas.Proofs.Tree.Subtree
import FieldAtlas.Proofs.Tree.Validated
import FieldAtlas.Resolution.Resolver
import FieldAtlas.Tree.Outline
