import Chronicle.Main
import Chronicle.Replication
import Chronicle.Item.Family
import Chronicle.Registry.Mutation
import Chronicle.Settings
import Chronicle.Proofs.Isolation
import Chronicle.Proofs.PutTakeover
import Chronicle.Proofs.RegistryHistory
import Chronicle.Proofs.Shipping
import Chronicle.Proofs.Streams
import Chronicle.Proofs.AliasTable
import Chronicle.Proofs.AliasShipping
import Chronicle.Proofs.Pagination
import Chronicle.Proofs.RegistryFrozen
import Chronicle.Proofs.ViewProgress
import Chronicle.Proofs.RedeliveredPointers
import Chronicle.Proofs.RegistryVersion
import Chronicle.Proofs.EntityVersions
import Chronicle.Proofs.Refusals
import Chronicle.Proofs.MutationEffects
import Chronicle.Proofs.Residue
import Chronicle.Proofs.AppendOnly
import Chronicle.Proofs.SlotLists
import Chronicle.Proofs.CallOrder
import Chronicle.Proofs.Payloads
import Chronicle.Proofs.LogContinuation
import Chronicle.Proofs.Families
import Chronicle.Proofs.FreeIndexes
import Chronicle.Proofs.PackedRecords
import Chronicle.Proofs.ChangeRecords
import Chronicle.Proofs.SchemaText
import Chronicle.Proofs.DecodedValues
import Chronicle.Proofs.ChangeFolds
import Chronicle.Proofs.EncodedIds
