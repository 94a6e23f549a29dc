import TaggedCache.Cache
import TaggedCache.Proofs.Cache.Calls
import TaggedCache.Proofs.Cache.Frame
import TaggedCache.Proofs.Cache.Isolation
import TaggedCache.Proofs.Cache.Lingering
import TaggedCache.Proofs.Cache.Listing
import TaggedCache.Proofs.Codec.Cycle
import TaggedCache.Proofs.Codec.Failure
import TaggedCache.Proofs.Codec.FieldOrder
import TaggedCache.Proofs.Codec.Generic
import TaggedCache.Proofs.Codec.Members
import TaggedCache.Proofs.Codec.Mentions
import TaggedCache.Proofs.Codec.PlainForm
import TaggedCache.Proofs.Codec.ReadOutcome
import TaggedCache.Proofs.Codec.Tagging
import TaggedCache.Proofs.Codec.TypedObjects
import TaggedCache.Proofs.Codec.TypedRead
import TaggedCache.Proofs.Glob.Match
import TaggedCache.Proofs.Glob.Scan
import TaggedCache.Proofs.Glob.Scope
import TaggedCache.Proofs.Json.Rearrange
import TaggedCache.Proofs.Kind.Name
import TaggedCache.Proofs.Order.Contents
import TaggedCache.Proofs.Order.Filling
import TaggedCache.Proofs.Order.Hashing
import TaggedCache.Proofs.Order.Magnitude
import TaggedCache.Proofs.Order.Membership
import TaggedCache.Proofs.Registry.Alias
import TaggedCache.Proofs.Registry.Plan
import TaggedCache.Proofs.Store.Calls
import TaggedCache.Proofs.Store.Expiry
import TaggedCache.Typed.Key
import TaggedCache.Typed.Record
