import RandomUserClient.RefreshHandler
import RandomUserClient.FetchingFlag
import RandomUserClient.UsersListFeed
import RandomUserClient.FavoriteParity
import RandomUserClient.StaleRows
import RandomUserClient.LeafIsolation
import RandomUserClient.PagingProgress
import RandomUserClient.ResumedPages
import RandomUserClient.RefreshMerge
import RandomUserClient.StoredLeaves
import RandomUserClient.UserInfoSections
import RandomUserClient.PictureLoads
import RandomUserClient.AddressableRows
import RandomUserClient.PageBounds
import RandomUserClient.DeletedUsers
import RandomUserClient.RealmErrors
import RandomUserClient.FavoritesRows
import RandomUserClient.CalculatedChanges
import RandomUserClient.CollectionNotifier
import RandomUserClient.ModificationChecker
import RandomUserClient.DeliveredBatches
import RandomUserClient.ObservedTables
